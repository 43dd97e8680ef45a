import Smalltalk.Fleet.Acceptance
import Smalltalk.Lib.Machine
import Smalltalk.Store.Tables

/-!
# The fleet generation and the caches it keys

Every write of a row that the membership fold reads moves `fleet_generation`. A trigger
declared `AFTER UPDATE OF` some columns fires when the statement sets one of them, whatever the
values.

The store keeps the last membership and the last sealed view with the generation they were
folded at. The membership is filled by three reads that other transactions may come between; the
view by one snapshot, which may be an old one.
-/

namespace Smalltalk

open Option Table FleetView

/-- `content`: the statement sets `kind`, `batch_id` or `body`; `identity`: it
sets `id` or `subject`. -/
structure ClaimUpdate where
  moved : String
  row : ClaimRow → ClaimRow
  content : Bool
  identity : Bool

def ClaimUpdate.id (set : ClaimUpdate) (id : String) : String :=
  if set.identity then set.moved else id

def ClaimUpdate.apply (set : ClaimUpdate) (old : ClaimRow) : ClaimRow :=
  { set.row old with
    kind := if set.content then (set.row old).kind else old.kind
    batchId := if set.content then (set.row old).batchId else old.batchId
    body := if set.content then (set.row old).body else old.body
    subject := if set.identity then (set.row old).subject else old.subject }

/-- `named`: the statement sets `id`, `origin` or `replica_sequence`. -/
structure BatchUpdate where
  moved : String
  row : BatchRow → BatchRow
  named : Bool

def BatchUpdate.id (set : BatchUpdate) (id : String) : String := if set.named then set.moved else id

def BatchUpdate.apply (set : BatchUpdate) (old : BatchRow) : BatchRow :=
  { set.row old with
    origin := if set.named then (set.row old).origin else old.origin
    replicaSequence := if set.named then (set.row old).replicaSequence else old.replicaSequence }

/-- `named`: the statement sets `writer`, `sequence` or `envelope_hash`;
`carried`: it sets `batch_id`. -/
structure EnvelopeUpdate where
  moved : EnvelopeId
  row : EnvelopeRow → EnvelopeRow
  named : Bool
  carried : Bool

def EnvelopeUpdate.id (set : EnvelopeUpdate) (id : EnvelopeId) : EnvelopeId :=
  if set.named then set.moved else id

def EnvelopeUpdate.apply (set : EnvelopeUpdate) (old : EnvelopeRow) : EnvelopeRow :=
  { set.row old with batchId := if set.carried then (set.row old).batchId else old.batchId }

inductive Write where
  | statement (statement : Statement)
  | updateClaim (id : String) (set : ClaimUpdate)
  | updateBatch (id : String) (set : BatchUpdate)
  | updateEnvelopeRow (id : EnvelopeId) (set : EnvelopeUpdate)
  | updateSignature (id : EnvelopeId) (key : String) (moved : EnvelopeId × String)
      (signature : String)

def Table.movable {κ ρ : Type} [DecidableEq κ] (t : Table κ ρ) (k k' : κ) : Option ρ :=
  if k' = k ∨ t.get? k' = none then t.get? k else none

namespace Db

/-- One write and the triggers that fire after it. -/
def write (db : Db) : Write → Db
  | .statement statement => db.exec statement
  | .updateClaim id set =>
    let fired :=
      (db.claims.movable id (set.id id)).any fun old :
        ClaimRow => old.isFleet || (set.apply old).isFleet
    ({ db with claims := db.claims.move id (set.id id) set.apply }.bump (set.content && fired)).bump
      (set.identity && fired)
  | .updateBatch id set =>
    let fired := (db.batches.movable id (set.id id)).isSome &&
      (carriesFleetClaims db.claims (some id) || carriesFleetClaims db.claims (some (set.id id)))
    { db with batches := db.batches.move id (set.id id) set.apply }.bump (set.named && fired)
  | .updateEnvelopeRow id set =>
    let row := db.envelopes.movable id (set.id id)
    let old := row.any fun row : EnvelopeRow => carriesFleetClaims db.claims row.batchId
    let new := row.any fun row : EnvelopeRow => carriesFleetClaims db.claims (set.apply row).batchId
    ({ db with envelopes := db.envelopes.move id (set.id id) set.apply }.bump
      (set.carried && new)).bump
      ((set.named || set.carried) && (old || new))
  | .updateSignature id key moved signature =>
    let fired := (db.signatures.movable (id, key) moved).isSome &&
      (signsFleetClaims db.claims db.batches db.envelopes moved.1 ||
        signsFleetClaims db.claims db.batches db.envelopes id)
    { db with signatures := db.signatures.move (id, key) moved fun _ => signature }.bump fired

def commit (db : Db) (writes : List Write) : Db := writes.foldl write db

section
variable {db : Db}

theorem fleetGeneration_write_le (db : Db) (w : Write) :
    db.fleetGeneration ≤ (db.write w).fleetGeneration := by
  cases w with
  | statement s => exact fleetGeneration_exec_le db s
  | _ => simp only [write, bump_fleetGeneration]; omega

section
variable {κ ρ : Type} [DecidableEq κ] {t : Table κ ρ} {k k' : κ}

theorem movable_of_stays (h : k' = k) : t.movable k k' = t.get? k := if_pos (.inl h)

theorem movable_of_free (h : t.get? k' = none) : t.movable k k' = t.get? k := if_pos (.inr h)

end

theorem not_fired_of_generation_eq₂ {g : Nat} {first s : Bool}
    (h : g + first.toNat + s.toNat = g) : first = false ∧ s = false := by
  cases first <;> cases s <;> simp only [Bool.toNat_true, Bool.toNat_false] at h <;>
    first | exact ⟨rfl, rfl⟩ | omega

theorem fleetClaims_updateClaim {id : String} {set : ClaimUpdate}
    (h : (db.write (.updateClaim id set)).fleetGeneration = db.fleetGeneration) :
    (db.write (.updateClaim id set)).fleetClaims = db.fleetClaims := by
  obtain ⟨hcontent, hd⟩ := not_fired_of_generation_eq₂ h
  -- a statement that sets any column the fold reads finds and leaves no fleet claim
  have hq : ∀ old, db.claims.movable id (set.id id) = some old →
      set.content = true ∨ set.identity = true →
      old.isFleet = false ∧ (set.apply old).isFleet = false := by
    intro old hold hs
    rw [hold, any_some] at hcontent hd
    rcases hs with hs | hs <;> simp_all
  have hn : ∀ (id : String) (row : ClaimRow), row.isFleet = false →
      fleetClaim db.batches db.envelopes db.signatures (id, row) = none := by
    intro id row hr
    exact if_neg (by simp [hr])
  change (db.claims.move id (set.id id) set.apply).rows.filterMap
    (fleetClaim db.batches db.envelopes db.signatures) = db.claims.rows.filterMap _
  apply filterMap_move
  · intro old hold ht
    by_cases hs : set.content = true ∨ set.identity = true
    · obtain ⟨hf, hf'⟩ := hq old ((movable_of_stays ht).trans hold) hs
      rw [hn _ _ hf, hn _ _ hf']
    · obtain ⟨hc, hi⟩ : set.content = false ∧ set.identity = false := by simpa using hs
      simp [fleetClaim, ClaimUpdate.apply, ClaimRow.isFleet, ClaimRow.fields, hc, hi]
  · intro old hold hm hclaims
    have hi : set.identity = true := by
      by_contra hi
      exact hm (if_neg hi)
    obtain ⟨hf, hf'⟩ := hq old ((movable_of_free hclaims).trans hold) (.inr hi)
    exact ⟨hn _ _ hf, hn _ _ hf'⟩

/-- The fold reads a batch's writer and sequence only. -/
theorem filterMap_fleetClaim_named {claims : Table String ClaimRow}
    {batches batches' : Table String BatchRow} {envelopes : Table EnvelopeId EnvelopeRow}
    {signatures : Table (EnvelopeId × String) String}
    (h : ∀ id claim, claims.get? id = some claim → claim.isFleet = true →
      (batches'.get? claim.batchId).map (fun b => (b.origin, b.replicaSequence)) =
      (batches.get? claim.batchId).map fun b => (b.origin, b.replicaSequence)) :
    claims.rows.filterMap (fleetClaim batches' envelopes signatures) =
      claims.rows.filterMap (fleetClaim batches envelopes signatures) := by
  apply List.filterMap_congr
  intro r hr
  unfold fleetClaim
  by_cases hf : r.2.isFleet = true
  · have := h r.1 r.2 (mem_rows.mp hr) hf
    rw [if_pos hf, if_pos hf]
    cases hb : batches.get? r.2.batchId <;> cases hb' : batches'.get? r.2.batchId <;> simp_all
  · rw [if_neg hf, if_neg hf]

theorem fleetClaims_updateBatch {id : String} {set : BatchUpdate}
    (h : (db.write (.updateBatch id set)).fleetGeneration = db.fleetGeneration) :
    (db.write (.updateBatch id set)).fleetClaims = db.fleetClaims := by
  have hf := not_fired_of_generation_eq h
  change db.claims.rows.filterMap (fleetClaim (db.batches.move id (set.id id) set.apply) _ _) =
    db.claims.rows.filterMap _
  apply filterMap_fleetClaim_named
  intro claimId claim hc hl
  cases hn : set.named with
  | false =>
    have hi : set.id id = id := by simp [BatchUpdate.id, hn]
    rw [hi, Table.move]
    cases hold : db.batches.get? id with
    | none => rfl
    | some old =>
      simp only [if_true, get?_update]
      split
      · rename_i heq
        rw [heq, hold]
        simp [BatchUpdate.apply, hn]
      · rfl
  | true =>
    rw [hn, Bool.true_and] at hf
    cases hm : db.batches.movable id (set.id id) with
    | none =>
      -- nothing is there to update, or the statement is refused
      have hs : db.batches.move id (set.id id) set.apply = db.batches := by
        unfold Table.movable at hm
        unfold Table.move
        split
        · rfl
        · rename_i old hold
          rw [hold] at hm
          split at hm
          · cases hm
          · rename_i hne
            obtain ⟨hne, ht⟩ := not_or.mp hne
            rw [if_neg hne, if_pos (isSome_iff_ne_none.mpr ht)]
      rw [hs]
    | some old =>
      rw [hm, isSome_some, Bool.true_and, Bool.or_eq_false_iff] at hf
      rw [get?_move_of_ne]
      · exact fun heq => ne_of_not_carries hf.1 hc hl (congrArg some heq.symm)
      · exact fun heq => ne_of_not_carries hf.2 hc hl (congrArg some heq.symm)

theorem fleetClaims_updateEnvelopeRow {id : EnvelopeId} {set : EnvelopeUpdate}
    (h : (db.write (.updateEnvelopeRow id set)).fleetGeneration = db.fleetGeneration) :
    (db.write (.updateEnvelopeRow id set)).fleetClaims = db.fleetClaims := by
  have hf := (not_fired_of_generation_eq₂ h).2
  have hq : ∀ row, db.envelopes.movable id (set.id id) = some row →
      set.named = true ∨ set.carried = true →
        ∀ batchId, carriesFleetClaims db.claims (some batchId) = true →
        row.batchId ≠ some batchId ∧ (set.apply row).batchId ≠ some batchId := by
    intro row hr hs batchId hc
    have hs : (set.named || set.carried) = true := by simpa using hs
    rw [hr, hs, Bool.true_and, any_some, any_some, Bool.or_eq_false_iff] at hf
    constructor
    · intro heq; rw [heq, hc] at hf; cases hf.1
    · intro heq; rw [heq, hc] at hf; cases hf.2
  change db.claims.rows.filterMap (fleetClaim _ (db.envelopes.move id (set.id id) set.apply) _) =
    db.claims.rows.filterMap _
  apply filterMap_fleetClaim_envelopes
  intro batchId hc
  apply filterMap_move
  · intro row hr ht
    by_cases hs : set.carried = true
    · obtain ⟨hold, hw⟩ := hq row ((movable_of_stays ht).trans hr) (.inr hs) batchId hc
      rw [if_neg hold, if_neg hw]
    · simp [EnvelopeUpdate.apply, hs]
  · intro row hr hm henvelopes
    have hn : set.named = true := by
      by_contra hn
      exact hm (if_neg hn)
    obtain ⟨hold, hw⟩ := hq row ((movable_of_free henvelopes).trans hr) (.inl hn) batchId hc
    exact ⟨if_neg hold, if_neg hw⟩

theorem fleetClaims_updateSignature {id : EnvelopeId} {key : String} {m : EnvelopeId × String}
    {s : String}
    (h : (db.write (.updateSignature id key m s)).fleetGeneration = db.fleetGeneration) :
    (db.write (.updateSignature id key m s)).fleetClaims = db.fleetClaims := by
  have hf := not_fired_of_generation_eq h
  change db.claims.rows.filterMap (fleetClaim _ _ (db.signatures.move (id, key) m fun _ => s)) =
    db.claims.rows.filterMap _
  apply filterMap_fleetClaim_congr
  intro claimId claim hc hl
  refine ⟨rfl, rfl, fun batch hb hash hh => ?_⟩
  apply filterMap_move
  · intro _ _ _
    rfl
  · intro old hold _ hr
    rw [movable_of_free hr, hold, isSome_some, Bool.true_and, Bool.or_eq_false_iff] at hf
    constructor
    · exact if_neg (ne_of_not_signs hf.2 hc hl hb hh).symm
    · exact if_neg (ne_of_not_signs hf.1 hc hl hb hh).symm

/-- A write that leaves the counter alone leaves alone what the fold reads. -/
theorem input_write {w : Write} (h : (db.write w).fleetGeneration = db.fleetGeneration) :
    (db.write w).anchor = db.anchor ∧ (db.write w).fleetClaims = db.fleetClaims := by
  cases w with
  | statement s => exact ⟨anchor_exec h, fleetClaims_exec h⟩
  | updateClaim id set => exact ⟨rfl, fleetClaims_updateClaim h⟩
  | updateBatch id set => exact ⟨rfl, fleetClaims_updateBatch h⟩
  | updateEnvelopeRow id set => exact ⟨rfl, fleetClaims_updateEnvelopeRow h⟩
  | updateSignature id key m signature => exact ⟨rfl, fleetClaims_updateSignature h⟩

theorem fleetGeneration_commit_le (writes : List Write) :
    ∀ db : Db, db.fleetGeneration ≤ (db.commit writes).fleetGeneration := by
  induction writes with
  | nil => intro db; exact Nat.le_refl _
  | cons w writes ih =>
    intro db; exact Nat.le_trans (fleetGeneration_write_le db w) (ih (db.write w))

theorem input_commit (writes : List Write) :
    ∀ db : Db, (db.commit writes).fleetGeneration = db.fleetGeneration →
      (db.commit writes).anchor = db.anchor ∧ (db.commit writes).fleetClaims = db.fleetClaims := by
  induction writes with
  | nil => intro db _; exact ⟨rfl, rfl⟩
  | cons w writes ih =>
    intro db h
    have hf := fleetGeneration_write_le db w
    have hr := fleetGeneration_commit_le writes (db.write w)
    have hm : db.commit (w :: writes) = (db.write w).commit writes := rfl
    rw [hm] at h ⊢
    obtain ⟨ha, hc⟩ := ih (db.write w) (by omega)
    have hs : (db.write w).fleetGeneration = db.fleetGeneration := by omega
    obtain ⟨ha', hc'⟩ := input_write hs
    exact ⟨ha.trans ha', hc.trans hc'⟩

theorem fleetMembership_eq_fold (db : Db) :
    db.fleetMembership = .fold db.anchor db.fleetClaims := by
  unfold fleetMembership
  split
  · rename_i ha
    rw [ha]
    rfl
  · rename_i a ha
    rw [ha]

end

end Db

/-! ## The caches -/

namespace FleetCaches

inductive Fold where
  | begun (foldedAt : Nat)
  | anchored (foldedAt : Nat) (anchor : Option String)
  | folded (foldedAt : Nat) (membership : Membership)

/-- `past` holds every committed state, `checks` the generations that calls have read and not yet
compared. `served` and `views` record what the caches answered. -/
structure State where
  db : Db
  past : List Db
  checks : List Nat := []
  folds : List Fold := []
  membershipCache : Option (Nat × Membership) := none
  sealedCache : Option (Nat × FleetView) := none
  served : List (Db × Nat × Membership) := []
  views : List (Db × FleetView) := []

inductive Label where
  | commit (writes : List Write)
  | check
  | serve (call : Nat)
  | begin
  | readAnchor (call : Nat)
  | readClaims (call : Nat)
  | store (call : Nat)
  | sealedView (snapshot : Nat)

def sealedFleetView (snapshot : Db) (cache : Option (Nat × FleetView)) :
    FleetView × Option (Nat × FleetView) :=
  let fresh := fromMembership snapshot.fleetMembership
  match cache with
  | some (generation, view) =>
    if generation = snapshot.fleetGeneration then (view, cache)
    else (fresh, some (snapshot.fleetGeneration, fresh))
  | none => (fresh, some (snapshot.fleetGeneration, fresh))

def machine : Machine State Label where
  step s
    | .commit writes =>
      let db := s.db.commit writes
      some { s with db := db, past := db :: s.past }
    | .check => some { s with checks := s.checks ++ [s.db.fleetGeneration] }
    | .serve call =>
      match s.checks[call]?, s.membershipCache with
      | some current, some (foldedAt, membership) =>
        if foldedAt = current then
          some { s with served := (s.db, current, membership) :: s.served } else none
      | _, _ => none
    | .begin => some { s with folds := s.folds ++ [.begun s.db.fleetGeneration] }
    | .readAnchor call =>
      match s.folds[call]? with
      | some (.begun foldedAt) =>
        some { s with folds := s.folds.set call (.anchored foldedAt s.db.anchor) }
      | _ => none
    | .readClaims call =>
      match s.folds[call]? with
      | some (.anchored foldedAt anchor) =>
        some { s with folds := s.folds.set call (.folded foldedAt (.fold anchor s.db.fleetClaims)) }
      | _ => none
    | .store call =>
      match s.folds[call]? with
      | some (.folded foldedAt membership) =>
        some { s with membershipCache := some (foldedAt, membership) }
      | _ => none
    | .sealedView snapshot =>
      match s.past[snapshot]? with
      | some db =>
        let (view, cache) := sealedFleetView db s.sealedCache
        some { s with sealedCache := cache, views := (db, view) :: s.views }
      | none => none

def State.initial (db : Db) : State := { db := db, past := [db] }

def Current (db : Db) (foldedAt : Nat) (P : Db → Prop) : Prop :=
  foldedAt ≤ db.fleetGeneration ∧ (foldedAt = db.fleetGeneration → P db)

def OfInput (P : Db → Prop) : Prop :=
  ∀ ⦃db db' : Db⦄, db'.anchor = db.anchor → db'.fleetClaims = db.fleetClaims → P db → P db'

theorem Current.commit {db : Db} {generation : Nat} {P : Db → Prop} (h : Current db generation P)
    (hP : OfInput P) (writes : List Write) : Current (db.commit writes) generation P := by
  have hl := Db.fleetGeneration_commit_le writes db
  refine ⟨Nat.le_trans h.1 hl, fun ht => ?_⟩
  have hs : (db.commit writes).fleetGeneration = db.fleetGeneration := by have := h.1; omega
  obtain ⟨ha, hc⟩ := Db.input_commit writes db hs
  exact hP ha hc (h.2 (by omega))

theorem ofInput_anchor (anchor : Option String) : OfInput fun db => anchor = db.anchor := by
  intro db db' ha _ h
  rw [ha]
  exact h

theorem ofInput_membership (membership : Membership) :
    OfInput fun db => membership = db.fleetMembership := by
  intro db db' ha hc h
  rw [Db.fleetMembership_eq_fold, ha, hc, ← Db.fleetMembership_eq_fold]
  exact h

def Fold.Sound (db : Db) : Fold → Prop
  | .begun foldedAt => foldedAt ≤ db.fleetGeneration
  | .anchored foldedAt anchor => Current db foldedAt fun db => anchor = db.anchor
  | .folded foldedAt membership => Current db foldedAt fun db => membership = db.fleetMembership

variable {fold : Fold} {s : State}

theorem Fold.Sound.commit {db : Db} (h : fold.Sound db) (writes : List Write) :
    fold.Sound (db.commit writes) := by
  cases fold with
  | begun generation => exact Nat.le_trans h (Db.fleetGeneration_commit_le writes db)
  | anchored generation a =>
    exact Current.commit (P := fun db => a = db.anchor) h (ofInput_anchor a) writes
  | folded generation membership =>
    exact Current.commit (P := fun db => membership = db.fleetMembership) h
      (ofInput_membership membership) writes

structure Sound (s : State) : Prop where
  folds : ∀ fold ∈ s.folds, fold.Sound s.db
  cache : ∀ foldedAt membership, s.membershipCache = some (foldedAt, membership) →
    Current s.db foldedAt fun db => membership = db.fleetMembership
  past : ∀ db ∈ s.past, Current s.db db.fleetGeneration
    fun db' => db.fleetMembership = db'.fleetMembership
  agree : ∀ db ∈ s.past, ∀ db' ∈ s.past, db.fleetGeneration = db'.fleetGeneration →
    db.fleetMembership = db'.fleetMembership
  sealedCache : ∀ generation view, s.sealedCache = some (generation, view) →
    ∃ db ∈ s.past, db.fleetGeneration = generation ∧ view = fromMembership db.fleetMembership
  served : ∀ answer ∈ s.served, answer.2.1 = answer.1.fleetGeneration →
    answer.2.2 = answer.1.fleetMembership
  views : ∀ answer ∈ s.views, answer.2 = fromMembership answer.1.fleetMembership

theorem sound_initial (db : Db) : Sound (State.initial db) := by
  constructor <;> simp [State.initial, Current]

theorem Sound.commit (h : Sound s) (writes : List Write) :
    Sound { s with db := s.db.commit writes, past := s.db.commit writes :: s.past } := by
  have hp : ∀ db ∈ s.past, Current (s.db.commit writes) db.fleetGeneration
      fun db' => db.fleetMembership = db'.fleetMembership :=
    fun db hd => (h.past db hd).commit (ofInput_membership _) writes
  refine { h with
    folds := fun fold hf => (h.folds fold hf).commit writes
    cache := fun foldedAt membership hc => (h.cache _ _ hc).commit (ofInput_membership _) writes
    past := ?_, agree := ?_, sealedCache := ?_ }
  · intro db hd
    rcases List.mem_cons.mp hd with rfl | hd
    · exact ⟨Nat.le_refl _, fun _ => rfl⟩
    · exact hp db hd
  · intro db hd db' hd' hg
    rcases List.mem_cons.mp hd with rfl | hd <;> rcases List.mem_cons.mp hd' with rfl | hd'
    · rfl
    · exact ((hp db' hd').2 hg.symm).symm
    · exact (hp db hd).2 hg
    · exact h.agree db hd db' hd' hg
  · intro generation view hc
    obtain ⟨db, hd, hv⟩ := h.sealedCache generation view hc
    exact ⟨db, List.mem_cons_of_mem _ hd, hv⟩

theorem Sound.set (h : Sound s) {c : Nat} (hf : fold.Sound s.db) :
    Sound { s with folds := s.folds.set c fold } := by
  refine { h with folds := fun other ho => ?_ }
  rcases List.mem_or_eq_of_mem_set ho with ho | rfl
  · exact h.folds other ho
  · exact hf

theorem Sound.sealedView (h : Sound s) {db : Db} (hd : db ∈ s.past) : Sound { s with
      sealedCache := (sealedFleetView db s.sealedCache).2
      views := (db, (sealedFleetView db s.sealedCache).1) :: s.views } := by
  have hf : ∀ generation view, some (db.fleetGeneration, fromMembership db.fleetMembership) =
      some (generation, view) → ∃ db ∈ s.past, db.fleetGeneration = generation ∧
      view = fromMembership db.fleetMembership := by
    intro generation view heq
    cases heq
    exact ⟨db, hd, rfl, rfl⟩
  have hp : (sealedFleetView db s.sealedCache).1 = fromMembership db.fleetMembership ∧
      ∀ generation view, (sealedFleetView db s.sealedCache).2 = some (generation, view) →
        ∃ db ∈ s.past, db.fleetGeneration = generation ∧
        view = fromMembership db.fleetMembership := by
    unfold sealedFleetView
    cases hc : s.sealedCache with
    | none => exact ⟨rfl, hf⟩
    | some e =>
      obtain ⟨generation, view⟩ := e
      obtain ⟨old, hold, hg, hv⟩ := h.sealedCache generation view hc
      by_cases ha : generation = db.fleetGeneration
      · simp only [if_pos ha]
        refine ⟨?_, fun g v heq => ?_⟩
        · rw [hv, h.agree old hold db hd (hg.trans ha)]
        · cases heq
          exact ⟨old, hold, hg, hv⟩
      · simp only [if_neg ha]
        exact ⟨trivial, hf⟩
  refine { h with sealedCache := hp.2, views := ?_ }
  intro answer hn
  rcases List.mem_cons.mp hn with rfl | hn
  · exact hp.1
  · exact h.views answer hn

theorem sound_keeps : machine.Keeps (fun _ => True) Sound := by
  intro s label s' _ h hs
  cases label with
  | commit writes =>
    cases hs
    exact h.commit writes
  | check =>
    cases hs
    exact { h with }
  | serve c =>
    simp only [machine] at hs
    split at hs
    · rename_i current generation membership _ hcache
      obtain ⟨rfl, hs⟩ := ite_none_right_eq_some.mp hs
      cases hs
      refine { h with served := ?_ }
      intro answer hn
      rcases List.mem_cons.mp hn with rfl | hn
      · exact (h.cache _ _ hcache).2
      · exact h.served answer hn
    · cases hs
  | begin =>
    cases hs
    refine { h with folds := ?_ }
    intro fold hf
    rcases List.mem_append.mp hf with hf | hf
    · exact h.folds fold hf
    · rw [List.mem_singleton.mp hf]
      exact Nat.le_refl _
  | readAnchor c =>
    simp only [machine] at hs
    split at hs
    · rename_i generation hc
      cases hs
      have hl : generation ≤ s.db.fleetGeneration := h.folds _ (List.mem_of_getElem? hc)
      have hf : Fold.Sound s.db (.anchored generation s.db.anchor) := ⟨hl, fun _ => rfl⟩
      exact h.set hf
    · cases hs
  | readClaims c =>
    simp only [machine] at hs
    split at hs
    · rename_i generation anchor hc
      cases hs
      obtain ⟨hl, ha⟩ : Current s.db generation fun db => anchor = db.anchor :=
        h.folds _ (List.mem_of_getElem? hc)
      refine h.set ⟨hl, fun ht => ?_⟩
      have ha : anchor = s.db.anchor := ha ht
      change Membership.fold anchor s.db.fleetClaims = s.db.fleetMembership
      rw [Db.fleetMembership_eq_fold, ha]
    · cases hs
  | store c =>
    simp only [machine] at hs
    split at hs
    · rename_i generation membership hc
      cases hs
      refine { h with cache := ?_ }
      intro at' membership' heq
      cases heq
      exact h.folds _ (List.mem_of_getElem? hc)
    · cases hs
  | sealedView snapshot =>
    simp only [machine] at hs
    split at hs
    · rename_i db hd
      cases hs
      exact h.sealedView (List.mem_of_getElem? hd)
    · cases hs

/-- Every write that changes what the fold reads moves the counter, so what
the caches serve at the counter's value is what a fresh fold gives. -/
theorem generation_keys_caches {db : Db} {labels : List Label} {s : State}
    (hrun : machine.run (State.initial db) labels = some s) :
    (∀ (db : Db) (w : Write), (db.write w).anchor ≠ db.anchor ∨
      (db.write w).fleetClaims ≠ db.fleetClaims →
      (db.write w).fleetGeneration ≠ db.fleetGeneration) ∧
    (∀ answer ∈ s.served, answer.2.1 = answer.1.fleetGeneration →
      answer.2.2 = answer.1.fleetMembership) ∧
    ∀ answer ∈ s.views, answer.2 = fromMembership answer.1.fleetMembership := by
  refine ⟨?_, ?_⟩
  · intro db w hh hs
    obtain ⟨ha, hc⟩ := Db.input_write hs
    exact hh.elim (· ha) (· hc)
  · have h := sound_keeps.run (fun _ _ => trivial) (sound_initial db) hrun
    exact ⟨h.served, h.views⟩

def sampleLabels : List Label :=
  [.begin, .readAnchor 0, .readClaims 0, .store 0, .check, .serve 0, .sealedView 0, .commit [
      .statement (.setAnchor (some "oak-key")),
      .statement (.insertBatch "batch" ⟨"oak", 1, none, "hash", 0⟩),
      .statement (.insertClaim "claim" ⟨"batch", "host/oak", "fleet.member-admitted", "oak", none,
        .null, [], 0⟩)],
    .sealedView 0, .sealedView 1]

theorem sampleLabels_served : ∃ s, machine.run (State.initial {}) sampleLabels = some s ∧
    s.served.length = 1 ∧ s.views.length = 3 ∧ s.db.fleetGeneration = 2 ∧
    (∀ answer ∈ s.served, answer.2.1 = answer.1.fleetGeneration →
      answer.2.2 = answer.1.fleetMembership) ∧
    ∀ answer ∈ s.views, answer.2 = fromMembership answer.1.fleetMembership := by
  have hr : (machine.run (State.initial {}) sampleLabels).map
      (fun s => (s.served.length, s.views.length, s.db.fleetGeneration)) = some (1, 3, 2) := by
        decide +kernel
  obtain ⟨s, hs, hc⟩ := map_eq_some_iff.mp hr
  simp only [Prod.mk.injEq] at hc
  obtain ⟨hserved, hv, hg⟩ := hc
  exact ⟨s, hs, hserved, hv, hg, (generation_keys_caches hs).2⟩

end FleetCaches

end Smalltalk
