import Smalltalk.Store.Admission

/-!
# Admission uses the membership of its own transaction

The membership a loan admits under was folded before the loan. The loan compares generations
when it opens, and what it admits moves the generation only when the envelope carries membership
claims, which closes the loan.
-/

namespace Smalltalk

open List Option Table Except

section
variable {host : Host} {node : Node}

/-! ## What admission writes -/

def ReplicaEnvelope.headerBatchId (host : Host) (envelope : ReplicaEnvelope) : String :=
  batchIdOf host envelope.id.writer envelope.id.sequence envelope.previousHash envelope.acceptedAt

def KeepsTombstones (f : Ledger → Ledger) : Prop :=
  ∀ ledger, (f ledger).checkpointClaims = ledger.checkpointClaims ∧
    (f ledger).checkpointEnvelopes = ledger.checkpointEnvelopes

inductive Writes (batchId : String) : Statement → Prop where
  | ledger {f : Ledger → Ledger} (h : KeepsTombstones f) : Writes batchId (.ledger f)
  | batch (row : BatchRow) : Writes batchId (.insertBatch batchId row)
  | claim (id : String) (row : ClaimRow) (h : row.batchId = batchId) :
      Writes batchId (.insertClaim id row)

variable {db db' : Db} {id : EnvelopeId} {batchId : String} {envelope : ReplicaEnvelope}
    {s : System}
  {captured : Captured} {membership : Membership}

theorem putRecord_via {position : Nat} {state : RecordState} {claimId : Option String}
    {e : Option Error} :
    db.Via (Writes batchId) (putRecord db id position state claimId e) :=
  .exec (.ledger fun _ => ⟨rfl, rfl⟩)

theorem admitBlobs_via {blobs : List PreparedBlob} : ∀ {position : Nat} {db : Db} {d : Bool},
      db.Via (Writes batchId) (admitBlobs id position blobs db d).1 := by
  induction blobs with
  | nil => intro position db d; exact .refl db
  | cons b blobs ih =>
    intro position db d
    rw [admitBlobs]
    split
    · refine .trans ?_ ih
      refine .trans (.exec (.ledger ?_)) putRecord_via
      intro _; exact ⟨rfl, rfl⟩
    · exact .trans putRecord_via ih

variable {batch : ReplicaBatch} {claim : ClaimRow} {relay : String} {now : Nat} {pass : Pass}
    {result : Taken × Db}
  {t : System} {taken : Taken}

theorem batchId_of_valid {claim : ClaimRecord}
    (h : finishClaimCheck host db batch claim (checkClaim host batch claim) = .ok .valid) :
    claim.batchId = batch.id := by
  by_contra hn
  have hf : checkClaim host batch claim = .failed ⟨"claim-batch-mismatch",
      "replicated claim `" ++ claim.id ++ "` names another batch or writer"⟩ := by
    rw [checkClaim, if_pos (.inl hn)]
  rw [hf] at h
  simp [finishClaimCheck] at h

theorem admitClaim_via {position : Nat} {p : PreparedClaim} {d d' : Bool}
    (hh : p.check = checkClaim host batch p.claim)
    (h : admitClaim host id batch position p db d = .ok (db', d')) :
    db.Via (Writes batch.id) db' := by
  unfold admitClaim at h
  rw [hh] at h
  cases hr : p.raw with
  | error error => simp [hr] at h
  | ok _ =>
    simp only [hr] at h
    cases hf : finishClaimCheck host db batch p.claim (checkClaim host batch p.claim) with
    | error error =>
      simp only [hf, ok.injEq, Prod.mk.injEq] at h
      rw [← h.1]
      exact putRecord_via
    | ok admission =>
      cases admission with
      | valid =>
        simp only [hf] at h
        split at h
        · simp only [ok.injEq, Prod.mk.injEq] at h
          rw [← h.1]
          exact putRecord_via
        · cases hc : p.columns with
          | error error => simp [hc] at h
          | ok _ =>
            simp only [hc, ok.injEq, Prod.mk.injEq] at h
            rw [← h.1]
            exact .trans (.exec (.claim _ _ (batchId_of_valid hf))) putRecord_via
      | unknownKind | unknownField =>
        simp only [hf, ok.injEq, Prod.mk.injEq] at h
        rw [← h.1]
        exact putRecord_via

theorem admitClaims_via {claims : List PreparedClaim}
    (hc : ∀ prepared ∈ claims, prepared.check = checkClaim host batch prepared.claim) :
    ∀ {position : Nat} {db db' : Db} {d d' : Bool},
      admitClaims host id batch position claims db d = .ok (db', d') →
      db.Via (Writes batch.id) db' := by
  induction claims with
  | nil =>
    intro position db db' d d' h
    simp only [admitClaims, ok.injEq, Prod.mk.injEq] at h
    rw [← h.1]
    exact .refl db
  | cons prepared claims ih =>
    intro position db db' d d' h
    rw [admitClaims] at h
    cases ho : admitClaim host id batch position prepared db d with
    | error error => simp [ho] at h
    | ok next =>
      simp only [ho] at h
      have hf := admitClaim_via (hc prepared mem_cons_self) ho
      exact hf.trans (ih (fun p hp => hc p (mem_cons_of_mem _ hp)) h)

theorem preparePayload_eq_ok {prepared : PreparedPayload}
    (h : preparePayload host envelope = .ok prepared) :
    ∃ bytes p, envelope.payload = .bytes bytes ∧
      host.envelopeHash envelope.id.writer envelope.id.sequence (envelope.previousHash.getD "")
        envelope.acceptedAt bytes = envelope.id.hash ∧
      host.decodePayload bytes = .ok p ∧ prepared = preparedPayload host p ∧
      p.batch.id = envelope.headerBatchId host ∧ p.batch.previousHash = envelope.previousHash := by
  unfold preparePayload at h
  cases hp : envelope.payload with
  | invalidBase64 text => simp [hp] at h
  | bytes bytes =>
    simp only [hp] at h
    split at h
    · cases h
    · rename_i hnoHash
      cases hd : host.decodePayload bytes with
      | error error => simp [hd] at h
      | ok p =>
        simp only [hd] at h
        split at h
        · cases h
        · rename_i hh
          push Not at hh
          obtain ⟨ho, hs, hr, ha⟩ := hh
          cases hv : verifyReplicaBatchHeader host p.batch with
          | error error => simp [hv] at h
          | ok _ =>
            simp only [hv, ok.injEq] at h
            refine ⟨bytes, p, rfl, not_not.mp hnoHash, hd, h.symm, ?_, hr⟩
            unfold verifyReplicaBatchHeader at hv
            split at hv
            · cases hv
            · rename_i hi
              push Not at hi
              rw [hi.2, ← hi.1, ReplicaEnvelope.headerBatchId, batchIdOf, ho, hs, hr, ha]

theorem check_of_prepared {prepared : PreparedPayload}
    (h : preparePayload host envelope = .ok prepared) :
    ∀ p ∈ prepared.claims, p.check = checkClaim host prepared.batch p.claim := by
  obtain ⟨_, _, _, _, _, rfl, _⟩ := preparePayload_eq_ok h
  intro p hp
  obtain ⟨claim, _, rfl⟩ := List.mem_map.mp hp
  rfl

/-- The writes of an admission before it marks the envelope. -/
theorem admission_via {p : PreparedPayload} (hp : preparePayload host envelope = .ok p)
    {db db' : Db} {d : Bool} (h : admitClaims host envelope.id p.batch 0 p.claims
      ((admitBlobs envelope.id p.claims.length p.blobs db false).1.exec
        (.insertBatch p.batch.id p.batch.row))
      (admitBlobs envelope.id p.claims.length p.blobs db false).2 = .ok (db', d)) :
    db.Via (Writes p.batch.id) db' :=
  .trans (.trans admitBlobs_via (.exec (.batch _))) (admitClaims_via (check_of_prepared hp) h)

def markAdmitted (batchId : String) (degraded : Bool) (row : EnvelopeRow) : EnvelopeRow :=
  { row with
    receiptState := if degraded then .degraded else .validated
    validationError := none
    batchId := some batchId }

theorem admitPreparedEnvelope_eq_ok
    (h : admitPreparedEnvelope host envelope.id (preparePayload host envelope) db = .ok db') :
    ∃ (p : PreparedPayload) (mid : Db) (d : Bool),
      preparePayload host envelope = .ok p ∧ db.Via (Writes (envelope.headerBatchId host)) mid ∧
      db' =
        mid.exec (.updateEnvelope envelope.id (markAdmitted (envelope.headerBatchId host) d)) := by
  cases hp : preparePayload host envelope with
  | error error => simp [hp, admitPreparedEnvelope] at h
  | ok p =>
    have hi : p.batch.id = envelope.headerBatchId host := by
      obtain ⟨_, _, _, _, _, rfl, hi, _⟩ := preparePayload_eq_ok hp
      exact hi
    rw [hp] at h
    unfold admitPreparedEnvelope at h
    simp only at h
    split at h
    · cases h
    · rename_i mid d hc
      cases h
      exact ⟨p, mid, d, rfl, hi ▸ admission_via hp hc, by rw [← hi]; rfl⟩

/-! ## Which admissions move the generation -/

theorem carriesFleetClaims_iff {claims : Table String ClaimRow} {batchId : Option String} :
    carriesFleetClaims claims batchId = true ↔
      ∃ id claim, claims.get? id = some claim ∧ claim.isFleet = true ∧
      batchId = some claim.batchId := by
  simp only [carriesFleetClaims, List.any_eq_true, decide_eq_true_eq, Prod.exists, mem_rows]

theorem get?_insertClaim {id k : String} {row : ClaimRow} (h : db.claims.get? k = some claim) :
    (db.exec (.insertClaim id row)).claims.get? k = some claim := by
  change (db.claims.insert id row).get? k = some claim
  cases hi : db.claims.get? id with
  | some old => rw [insert_of_some hi, h]
  | none =>
    rw [get?_insert, if_neg, h]
    intro heq
    rw [heq, hi] at h
    cases h

theorem claims_via (h : db.Via (Writes batchId) db') {id : String}
    (hc : db.claims.get? id = some claim) : db'.claims.get? id = some claim := by
  refine h.keeps (Q := fun db => db.claims.get? id = some claim) ?_ hc
  intro db s hs hg
  cases hs with
  | ledger | batch => exact hg
  | claim k row _ => exact get?_insertClaim hg

theorem carriesFleetClaims_via (h : db.Via (Writes batchId) db')
    {other : Option String} (hc : carriesFleetClaims db.claims other = true) :
    carriesFleetClaims db'.claims other = true := by
  obtain ⟨id, claim, hl, hf, ho⟩ := carriesFleetClaims_iff.mp hc
  exact carriesFleetClaims_iff.mpr ⟨id, claim, claims_via h hl, hf, ho⟩

/-- Admission moves the generation only for a batch with membership claims. -/
theorem fleetGeneration_exec_of_writes {s : Statement}
    (hs : Writes batchId s) (hq : carriesFleetClaims (db.exec s).claims (some batchId) = false) :
    (db.exec s).fleetGeneration = db.fleetGeneration := by
  cases hs with
  | ledger _ => rfl
  | batch row =>
    have hc : carriesFleetClaims db.claims (some batchId) = false := hq
    simp [Db.exec, Db.bump, hc]
  | claim id row hw =>
    by_contra hn
    have hf : (db.claims.get? id).isNone = true ∧ row.isFleet = true := by
      by_contra hnot
      apply hn
      have hf : ((db.claims.get? id).isNone && row.isFleet) = false := by
        cases hk : (db.claims.get? id).isNone <;> cases hr : row.isFleet <;> simp_all
      change db.fleetGeneration + ((db.claims.get? id).isNone && row.isFleet).toNat = _
      rw [hf]
      rfl
    have ht : (db.exec (.insertClaim id row)).claims.get? id = some row := by
      change (db.claims.insert id row).get? id = some row
      rw [get?_insert, if_pos rfl, isNone_iff_eq_none.mp hf.1]
      rfl
    have := carriesFleetClaims_iff.mpr ⟨id, row, ht, hf.2, congrArg some hw.symm⟩
    rw [hq] at this
    cases this

theorem fleetGeneration_via (h : db.Via (Writes batchId) db')
    (hq : carriesFleetClaims db'.claims (some batchId) = false) :
    db'.fleetGeneration = db.fleetGeneration := by
  obtain ⟨signatures, hw, rfl⟩ := h
  induction signatures generalizing db with
  | nil => rfl
  | cons s signatures ih =>
    have hr : ∀ t ∈ signatures, Writes batchId t := fun t ht => hw t (mem_cons_of_mem _ ht)
    have hl : (db.exec s).Via (Writes batchId) (db.execAll (s :: signatures)) :=
      ⟨signatures, hr, rfl⟩
    have hf : carriesFleetClaims (db.exec s).claims (some batchId) = false := by
      cases hc : carriesFleetClaims (db.exec s).claims (some batchId) with
      | false => rfl
      | true => rw [carriesFleetClaims_via hl hc] at hq; cases hq
    have hg : (db.execAll (s :: signatures)).fleetGeneration = (db.exec s).fleetGeneration :=
      ih hr hq
    exact hg.trans (fleetGeneration_exec_of_writes (hw s mem_cons_self) hf)

/-! ## What holds of every reachable store -/

theorem Allowed.of_writes {s : Statement} (h : Writes batchId s) : Allowed host node s := by
  cases h <;> trivial

variable (host node) in
structure StoreOk (db : Db) : Prop where
  signatures : ∀ id key signature, db.signatures.get? (id, key) = some signature →
    verifies host node id key signature = true
  envelopes : ∀ id row, db.envelopes.get? id = some row → BatchOfHeader host id row

theorem batchOfHeader_update {envelopes : Table EnvelopeId EnvelopeRow}
    {f : EnvelopeRow → EnvelopeRow}
    (h : ∀ k row, envelopes.get? k = some row → BatchOfHeader host k row)
    (hf : ∀ row, envelopes.get? id = some row → BatchOfHeader host id (f row)) (k : EnvelopeId)
    (row : EnvelopeRow) (hr : (envelopes.update id f).get? k = some row) :
    BatchOfHeader host k row := by
  rw [get?_update] at hr
  split at hr
  · rename_i heq
    subst heq
    obtain ⟨old, hold, rfl⟩ := map_eq_some_iff.mp hr
    exact hf old hold
  · exact h k row hr

theorem StoreOk.exec {s : Statement} (hs : Allowed host node s) (h : StoreOk host node db) :
    StoreOk host node (db.exec s) := by
  cases s with
  | insertSignature id key signature =>
    refine ⟨fun k key' s' hk => ?_, h.envelopes⟩
    rcases of_get?_insert hk with hold | ⟨heq, rfl⟩
    · exact h.signatures _ _ _ hold
    · cases heq
      exact hs
  | deleteSignature id key =>
    refine ⟨fun k key' s' hk => ?_, h.envelopes⟩
    exact h.signatures _ _ _ (of_get?_delete hk)
  | insertEnvelope id row =>
    refine ⟨h.signatures, fun k row' hk => ?_⟩
    rcases of_get?_insert hk with hold | ⟨rfl, rfl⟩
    · exact h.envelopes _ _ hold
    · exact hs
  | updateEnvelope id f =>
    refine ⟨h.signatures, batchOfHeader_update h.envelopes ?_⟩
    intro row hr
    exact hs row (h.envelopes id row hr)
  | markEnvelope id f =>
    refine ⟨h.signatures, batchOfHeader_update h.envelopes ?_⟩
    intro row hr
    exact h.envelopes id row hr
  | deleteEnvelope id =>
    refine ⟨h.signatures, fun k row' hk => ?_⟩
    exact h.envelopes _ _ (of_get?_delete hk)
  | _ => exact ⟨h.signatures, h.envelopes⟩

theorem StoreOk.via (hv : db.Via (Allowed host node) db') (h : StoreOk host node db) :
    StoreOk host node db' :=
  hv.keeps (fun _ _ hs hd => hd.exec hs) h

variable (host node) in
inductive Receives : Statement → Prop where
  | signature {id : EnvelopeId} {key signature : String}
      (h : verifies host node id key signature = true) :
      Receives (.insertSignature id key signature)
  | envelope {id : EnvelopeId} {row : EnvelopeRow} (h : row.batchId = none) :
      Receives (.insertEnvelope id row)

theorem Allowed.of_receives {s : Statement} (h : Receives host node s) : Allowed host node s := by
  cases h with
  | signature h => exact h
  | envelope h => exact .inl h

theorem storeSignature_via {key signature : String} :
    db.Via (Receives host node) (storeSignature host node db id key signature) := by
  unfold storeSignature
  split
  · rename_i hv
    exact .exec (.signature hv)
  · exact .refl db

theorem storeCarriedSignature_via :
    db.Via (Receives host node) (storeCarriedSignature host node db envelope) := by
  unfold storeCarriedSignature
  split
  · exact storeSignature_via
  · exact .refl db

theorem receiveEnvelope_via :
    db.Via (Receives host node) (receiveEnvelope host node relay now db envelope) := by
  unfold receiveEnvelope
  split
  · exact .refl db
  · exact .trans storeCarriedSignature_via (.exec (.envelope rfl))

theorem receiveSignature_via {signature : ReplicaEnvelopeSignature} :
    db.Via (Receives host node) (receiveSignature host node db signature) := by
  unfold receiveSignature
  split
  · exact .refl db
  · exact storeSignature_via

theorem foldl_via {α : Type} {P : Statement → Prop} {f : Db → α → Db}
    (h : ∀ (db : Db) a, db.Via P (f db a)) (as : List α) : ∀ db : Db, db.Via P (as.foldl f db) := by
  induction as with
  | nil => exact .refl
  | cons a as ih => exact fun db => (h db a).trans (ih (f db a))

/-- The labels are this node's, and every sequence that is bound fits SQLite's integers. -/
def ReplicationExchange.accepted (host : Host) (node : Node) (relay : String)
    (exchange : ReplicationExchange) : Bool :=
  exchange.peer = relay ∧ exchange.fleetId = node.fleetId ∧ exchange.shardId = node.shardId ∧
    (∀ e ∈ exchange.envelopes, e.id.sequence ≤ i64Max) ∧
      ∀ s ∈ exchange.verifiedSignatures host node, s.id.sequence ≤ i64Max

theorem Job.each_bound_iff {α : Type} (idOf : α → EnvelopeId) (f : Db → α → Db) (as : List α) :
    ∀ db db' : Db, Job.each (fun a => Job.bound (idOf a) (f · a)) as db = (.ok (), db') ↔
      (∀ a ∈ as, (idOf a).sequence ≤ i64Max) ∧ as.foldl f db = db' := by
  induction as with
  | nil => simp [Job.each]
  | cons a as ih =>
    intro db db'
    by_cases hi : (idOf a).sequence ≤ i64Max
    · simp [Job.each, Job.andThen, Job.bound, hi, ih]
    · simp [Job.each, Job.andThen, Job.bound, hi]

theorem receivePage_eq_ok_iff {exchange : ReplicationExchange} :
    receivePage host node relay now exchange db = (.ok (), db') ↔
      ((∀ e ∈ exchange.envelopes, e.id.sequence ≤ i64Max) ∧
        ∀ s ∈ exchange.verifiedSignatures host node, s.id.sequence ≤ i64Max) ∧
      (exchange.verifiedSignatures host node).foldl (receiveSignature host node)
        (exchange.envelopes.foldl (receiveEnvelope host node relay now) db) = db' := by
  unfold receivePage Job.andThen
  have hn :=
    Job.each_bound_iff ReplicaEnvelope.id (receiveEnvelope host node relay now)
      exchange.envelopes db
  split
  · rename_i mid hm
    obtain ⟨he, rfl⟩ := (hn mid).mp hm
    rw [Job.each_bound_iff ReplicaEnvelopeSignature.id (receiveSignature host node)]
    exact and_congr_left' (and_iff_right he).symm
  · rename_i error mid hm
    constructor
    · intro h
      cases h
    · rintro ⟨⟨he, -⟩, -⟩
      have := (hn _).mpr ⟨he, rfl⟩
      rw [hm] at this
      cases this

/-- Receipt stores the whole page, envelopes first, exactly when it accepts the exchange. -/
theorem receiveExchange_eq_ok_iff {exchange : ReplicationExchange} :
    receiveExchange host node relay now exchange db = (.ok (), db') ↔
      exchange.accepted host node relay = true ∧
        (exchange.verifiedSignatures host node).foldl (receiveSignature host node)
        (exchange.envelopes.foldl (receiveEnvelope host node relay now) db) = db' := by
  unfold receiveExchange ReplicationExchange.accepted
  split_ifs with hp hf hs
  · simp [hp]
  · simp [hf]
  · simp [hs]
  · have hi : ∀ written, (receivePage host node relay now exchange).transaction db =
        (.ok (), written) ↔ receivePage host node relay now exchange db = (.ok (), written) := by
      intro written
      unfold Job.transaction
      split <;> simp_all
    rw [hi, receivePage_eq_ok_iff]
    simp only [not_not] at hp hf hs
    simp [hp, hf, hs]

theorem receiveExchange_via {exchange : ReplicationExchange}
    (h : receiveExchange host node relay now exchange db = (.ok (), db')) :
    db.Via (Receives host node) db' := by
  obtain ⟨-, rfl⟩ := receiveExchange_eq_ok_iff.mp h
  exact .trans (foldl_via (fun _ _ => receiveEnvelope_via) _ _)
    (foldl_via (fun _ _ => receiveSignature_via) _ _)

theorem claims_receives (h : db.Via (Receives host node) db') : db'.claims = db.claims := by
  refine h.keeps (Q := fun d => d.claims = db.claims) ?_ rfl
  intro d s hs hd
  cases hs <;> exact hd

/-! ## What one envelope's turn does -/

inductive Quiet (id : EnvelopeId) : Statement → Prop where
  | ledger {f : Ledger → Ledger} (h : KeepsTombstones f) : Quiet id (.ledger f)
  | mark {f : ReceiptState × Option String → ReceiptState × Option String}
      (h : ∀ receipt, (f receipt).1 = .validated → receipt.1 = .validated) :
        Quiet id (.markEnvelope id f)

theorem Allowed.of_quiet {s : Statement} (h : Quiet id s) : Allowed host node s := by
  cases h <;> trivial

theorem quiet_via (h : db.Via (Quiet id) db') :
    db'.claims = db.claims ∧ db'.batches = db.batches ∧
    db'.fleetGeneration = db.fleetGeneration := by
  refine h.keeps (Q := fun d => d.claims = db.claims ∧ d.batches = db.batches ∧
    d.fleetGeneration = db.fleetGeneration) ?_ ⟨rfl, rfl, rfl⟩
  intro d s hs hd
  cases hs with
  | ledger _ => exact hd
  | mark _ => exact hd

theorem holdReplicaEnvelope_via {r : HoldReason} :
    db.Via (Quiet id) (holdReplicaEnvelope db id r) := .exec (.ledger fun _ => ⟨rfl, rfl⟩)

theorem keepRetried_via : db.Via (Quiet id) (keepRetried db id) := by
  refine .exec (.mark ?_)
  intro receipt hv
  split at hv
  · cases hv
  · exact hv

theorem recordInvalidReplicaEnvelope_via {e : Error} :
    db.Via (Quiet id) (recordInvalidReplicaEnvelope db id e) := by
  unfold recordInvalidReplicaEnvelope
  refine .trans (.exec (Quiet.ledger ?_)) (.exec (Quiet.mark ?_))
  · intro _; exact ⟨rfl, rfl⟩
  · intro _ hv; cases hv

theorem finish_via (id : EnvelopeId) : db.Via (Quiet id) (pass.finish node db) := by
  unfold Pass.finish
  exact .exec (.ledger fun _ => ⟨rfl, rfl⟩)

def StillCaptured (db : Db) (captured : Captured) : Prop :=
  envelopeTombstoned db captured.envelope.id = false ∧
  ∃ row, db.envelopes.get? captured.envelope.id = some row ∧
      row.previousHash = captured.envelope.previousHash ∧
      row.acceptedAt = captured.envelope.acceptedAt ∧
      row.rowid = captured.rowid ∧ row.receivedAt = captured.receivedAt

theorem admissionEnvelopeRow_eq_some :
    admissionEnvelopeRow db captured.envelope = some (captured.rowid, captured.receivedAt) ↔
      StillCaptured db captured := by
  unfold admissionEnvelopeRow StillCaptured
  cases hr : db.envelopes.get? captured.envelope.id with
  | none => simp
  | some row =>
    simp only [ite_none_right_eq_some, some.injEq, Prod.mk.injEq, exists_eq_left']
    simp only [Bool.not_eq_true]
    tauto

inductive Turn (host : Host) (membership : Membership) (db : Db) (captured : Captured) :
    Taken × Db → Prop where
  | skipped (h : ¬ StillCaptured db captured) : Turn host membership db captured (.skipped, db)
  | held (h : StillCaptured db captured) {reason : HoldReason}
      (hold : fleetAdmissionHold db membership captured.envelope.id = some reason) {db' : Db}
      (via : db.Via (Quiet captured.envelope.id) db')
        (stored : db'.ledger.holds.get? captured.envelope.id = some reason) :
      Turn host membership db captured (.held, db')
  | admitted (h : StillCaptured db captured)
      (hold : fleetAdmissionHold db membership captured.envelope.id = none)
        {payload : PreparedPayload}
      (prepared : preparePayload host captured.envelope = .ok payload) {mid : Db} {degraded : Bool}
      (via : db.Via (Writes (captured.envelope.headerBatchId host)) mid) {f : Ledger → Ledger}
      (kept : KeepsTombstones f) :
      Turn host membership db captured (.admitted, (mid.exec (.updateEnvelope captured.envelope.id
        (markAdmitted (captured.envelope.headerBatchId host) degraded))).exec (.ledger f))
  | invalid (h : StillCaptured db captured)
      (hold : fleetAdmissionHold db membership captured.envelope.id = none) {db' : Db}
      (via : db.Via (Quiet captured.envelope.id) db') :
        Turn host membership db captured (.invalid, db')

theorem takeEnvelope_turn (retry : Bool) (membership : Membership) (db : Db) (captured : Captured) :
    Turn host membership db captured (takeEnvelope host retry membership db captured) := by
  unfold takeEnvelope
  simp only
  split
  · rename_i hr
    exact .skipped fun h => hr (admissionEnvelopeRow_eq_some.mpr h)
  · rename_i hr
    have hc := admissionEnvelopeRow_eq_some.mp (not_not.mp hr)
    split
    · rename_i reason hh
      have hs : (holdReplicaEnvelope db captured.envelope.id reason).ledger.holds.get?
          captured.envelope.id = some reason := by
        change (db.ledger.holds.put _ reason).get? _ = _
        rw [get?_put, if_pos rfl]
      cases retry with
      | false => exact .held hc hh holdReplicaEnvelope_via hs
      | true => exact .held hc hh (holdReplicaEnvelope_via.trans keepRetried_via) hs
    · rename_i hh
      split
      · rename_i db' ho
        obtain ⟨p, mid, degraded, hp, hv, rfl⟩ := admitPreparedEnvelope_eq_ok ho
        exact .admitted hc hh hp hv fun _ => ⟨rfl, rfl⟩
      · exact .invalid hc hh recordInvalidReplicaEnvelope_via

theorem batchId_of_stillCaptured (h : StillCaptured db captured) (ho : StoreOk host node db)
    {row : EnvelopeRow} (hr : db.envelopes.get? captured.envelope.id = some row) :
    row.batchId = none ∨ row.batchId = some (captured.envelope.headerBatchId host) := by
  obtain ⟨_, row', hr', hp, ha, _⟩ := h
  obtain rfl : row = row' := some.inj (hr.symm.trans hr')
  have := ho.envelopes _ _ hr
  rwa [BatchOfHeader, hp, ha] at this

theorem writes_via_envelopes (h : db.Via (Writes batchId) db') : db'.envelopes = db.envelopes := by
  refine h.keeps (Q := fun d => d.envelopes = db.envelopes) ?_ rfl
  intro d s hs hd
  cases hs <;> exact hd

section
variable (h : Turn host membership db captured result)
include h

theorem Turn.storeOk (ho : StoreOk host node db) : StoreOk host node result.2 := by
  cases h with
  | skipped => exact ho
  | held _ _ via | invalid _ _ via => exact ho.via (via.mono fun _ => Allowed.of_quiet)
  | @admitted hc _ _ _ mid degraded via f _ =>
    have hm : StoreOk host node mid := ho.via (via.mono fun _ => Allowed.of_writes)
    refine ⟨hm.signatures, batchOfHeader_update hm.envelopes ?_⟩
    intro row hr
    rw [writes_via_envelopes via] at hr
    obtain ⟨_, row', hr', hp, ha, _⟩ := hc
    obtain rfl : row = row' := some.inj (hr.symm.trans hr')
    right
    simp only [markAdmitted, ReplicaEnvelope.headerBatchId, hp, ha]

/-- The generation moves only with an admitted envelope that carries membership claims. -/
theorem Turn.generation_eq (ho : StoreOk host node db)
    (hq : ¬ (result.1 = .admitted ∧
      envelopeCarriesFleetClaims result.2 captured.envelope.id = true)) :
    result.2.fleetGeneration = db.fleetGeneration := by
  cases h with
  | skipped => rfl
  | held _ _ via | invalid _ _ via => exact (quiet_via via).2.2
  | @admitted hp _ _ _ mid degraded via f _ =>
    have he := writes_via_envelopes via
    obtain ⟨row, hr⟩ : ∃ row, mid.envelopes.get? captured.envelope.id = some row := by
      obtain ⟨_, row, hr, _⟩ := hp
      exact ⟨row, he ▸ hr⟩
    have hn : carriesFleetClaims mid.claims
        (some (captured.envelope.headerBatchId host)) = false := by
      cases hc : carriesFleetClaims mid.claims (some (captured.envelope.headerBatchId host)) with
      | false => rfl
      | true =>
        refine absurd ⟨rfl, ?_⟩ hq
        change ((mid.envelopes.update _ _).get? _).any _ = true
        rw [get?_update, if_pos rfl, hr]
        exact hc
    have hold : carriesFleetClaims mid.claims row.batchId = false := by
      rcases batchId_of_stillCaptured hp ho (he ▸ hr) with hnone | hs
      · simp [hnone, carriesFleetClaims]
      · rw [hs, hn]
    have hg := fleetGeneration_via via hn
    simp [Db.exec, hr, hold, markAdmitted, hn, hg]

theorem Turn.via : db.Via (fun _ => True) result.2 := by
  cases h with
  | skipped => exact .refl db
  | held _ _ via | invalid _ _ via => exact via.mono fun _ _ => trivial
  | admitted _ _ _ via =>
    dsimp only
    exact .trans (.trans (via.mono fun _ _ => trivial) (.exec trivial)) (.exec trivial)

end

/-! ## The loan's membership is the store's -/

def Fresh (db : Db) (pass : Pass) : Prop :=
  ∀ generation membership, pass.membership = some (generation, membership) →
  generation ≤ db.fleetGeneration ∧
  (generation = db.fleetGeneration → membership = db.fleetMembership)

def LoanCurrent (db : Db) (pass : Pass) : Prop :=
  pass.loan = true → ∃ membership, pass.membership = some (db.fleetGeneration, membership)

theorem Fresh.via {P : Statement → Prop} (h : Fresh db pass) (hv : db.Via P db') :
    Fresh db' pass := by
  intro g membership hp
  obtain ⟨hl, heq⟩ := h g membership hp
  have hm := hv.fleetGeneration_le
  refine ⟨hl.trans hm, fun hg => ?_⟩
  have hs : db'.fleetGeneration = db.fleetGeneration := by omega
  rw [hv.fleetMembership_eq hs]
  exact heq (hg.trans hs)

variable (host node) in
structure SystemOk (s : System) : Prop where
  store : StoreOk host node s.db
  fresh : ∀ pass, s.pass = some pass → Fresh s.db pass
  current : ∀ pass, s.pass = some pass → LoanCurrent s.db pass

theorem SystemOk.outside (h : SystemOk host node s) (hl : s.loaned = false) {db : Db}
    (hv : s.db.Via (Allowed host node) db) : SystemOk host node { s with db } where
  store := h.store.via hv
  fresh := fun pass hp => (h.fresh pass hp).via hv
  current := by
    intro pass hp ho
    simp only at hp
    simp [System.loaned, hp, ho] at hl

theorem SystemOk.take (h : SystemOk host node s) (hp : s.pass = some pass)
    (hl : pass.loan = true) (membership : Membership) (captured : Captured) (r : List Captured) :
    SystemOk host node (pass.take host membership captured r s.db) := by
  have ht : Turn host membership s.db captured _ :=
    takeEnvelope_turn pass.retrySubjectReferences membership s.db captured
  refine ⟨ht.storeOk h.store, ?_, ?_⟩
  · intro pass' hp'
    cases hp'
    exact (h.fresh pass hp).via ht.via
  · intro pass' hp' ho
    cases hp'
    obtain ⟨membership', hc⟩ := h.current pass hp hl
    have hg := ht.generation_eq h.store (by simpa [imp_iff_not_or] using ho)
    exact ⟨membership', by simpa only [Pass.take, hg] using hc⟩

theorem SystemOk.step {label : Label host node} (h : SystemOk host node s)
    (hs : AdmissionStep host node s label t) : SystemOk host node t := by
  cases hs with
  | commit transaction hf => exact h.outside hf ⟨transaction.statements, transaction.allowed, rfl⟩
  | receive hf hr => exact h.outside hf ((receiveExchange_via hr).mono fun _ => Allowed.of_receives)
  | reject => exact h
  | @take db pass g membership captured rest hloan hl hn =>
    exact h.take rfl hloan membership captured rest
  | finish =>
    refine ⟨h.store.via ((finish_via ⟨"", 0, ""⟩).mono fun _ => Allowed.of_quiet), ?_, ?_⟩
    · intro pass hp; cases hp
    · intro pass hp; cases hp
  | start =>
    refine ⟨h.store, ?_, ?_⟩
    · intro pass hp; cases hp; intro g membership hm; cases hm
    · intro pass hp ho; cases hp; cases ho
  | @fold db pass hn hmembership =>
    refine ⟨h.store, ?_, ?_⟩
    · intro pass' hp g membership hm
      cases hp
      cases hm
      exact ⟨le_refl _, fun _ => rfl⟩
    · intro pass' hp ho
      cases hp
      obtain ⟨membership, hm⟩ := h.current pass rfl ho
      rw [hmembership] at hm
      cases hm
  | @stale db pass g membership hf hl hv | @again db pass hd hf hc =>
    refine ⟨h.store, ?_, ?_⟩
    · intro pass' hp g membership hm; cases hp; cases hm
    · intro pass' hp ho
      cases hp
      rw [hf] at ho
      cases ho
  | @openLoan db pass membership hf hl =>
    refine ⟨h.store, ?_, ?_⟩
    · intro pass' hp; cases hp; exact h.fresh pass rfl
    · intro pass' hp _; cases hp; exact ⟨membership, hl⟩
  | @closeLoan db pass =>
    refine ⟨h.store, ?_, ?_⟩
    · intro pass' hp; cases hp; exact h.fresh pass rfl
    · intro pass' hp ho; cases hp; cases ho

theorem systemOk_run {labels : List (Label host node)}
    (h : (admission host node).run {} labels = some s) : SystemOk host node s := by
  have hkeeps : (admission host node).Keeps (fun _ => True) (SystemOk host node) :=
    fun _ _ _ _ hs ht => hs.step (admissionStep_of_step ht)
  refine hkeeps.run (fun _ _ => trivial) ⟨?_, ?_, ?_⟩ h
  · constructor
    · intro id key signature hk; cases hk
    · intro id row hk; cases hk
  · intro pass hp; cases hp
  · intro pass hp; cases hp

variable (host node) in
/-- The store's membership lets the envelope in. -/
def Authorized (db : Db) (id : EnvelopeId) : Prop :=
  match db.fleetMembership.window id.writer id.sequence with
  | .legacy => True
  | .keyed keys => ∃ key ∈ keys, ∃ signature, db.signatures.get? (id, key) = some signature ∧
      verifies host node id key signature = true
  | .fenced => False

def holdReason (db : Db) (id : EnvelopeId) : HoldReason :=
  if db.fleetMembership.window id.writer id.sequence = .fenced then .fenced else .unsigned

theorem mem_signersOf {signatures : Table (EnvelopeId × String) String} {key : String} :
    key ∈ signersOf signatures id ↔ ∃ signature, signatures.get? (id, key) = some signature := by
  simp only [signersOf, mem_filterMap, ite_none_right_eq_some, some.injEq, Prod.exists, mem_rows]
  constructor
  · rintro ⟨id', key', signature, hg, rfl, rfl⟩
    exact ⟨signature, hg⟩
  · rintro ⟨signature, hg⟩
    exact ⟨id, key, signature, hg, rfl, rfl⟩

theorem fleetAdmissionHold_of_authorized (h : Authorized host node db id) :
    fleetAdmissionHold db db.fleetMembership id = none := by
  unfold Authorized at h
  unfold fleetAdmissionHold
  cases hw : db.fleetMembership.window id.writer id.sequence with
  | legacy => rfl
  | fenced => simp [hw] at h
  | keyed keys =>
    simp only [hw] at h ⊢
    obtain ⟨key, hk, signature, hs, _⟩ := h
    rw [if_pos]
    exact List.any_eq_true.mpr ⟨key, mem_signersOf.mpr ⟨signature, hs⟩, by simpa using hk⟩

theorem fleetAdmissionHold_of_not_authorized (ho : StoreOk host node db) {id : EnvelopeId}
    (h : ¬ Authorized host node db id) :
    fleetAdmissionHold db db.fleetMembership id = some (holdReason db id) := by
  unfold Authorized at h
  unfold fleetAdmissionHold holdReason
  cases hw : db.fleetMembership.window id.writer id.sequence with
  | legacy => simp [hw] at h
  | fenced => simp
  | keyed keys =>
    simp only [hw, reduceCtorEq, if_false] at h ⊢
    rw [if_neg]
    intro ha
    obtain ⟨key, hg, hk⟩ := List.any_eq_true.mp ha
    obtain ⟨signature, hs⟩ := mem_signersOf.mp hg
    exact h ⟨key, by simpa using hk, signature, hs, ho.signatures _ _ _ hs⟩

theorem claims_of_writes (h : db.Via (Writes batchId) db') {id : String}
    (hc : db'.claims.get? id = some claim) :
    db.claims.get? id = some claim ∨ claim.batchId = batchId := by
  revert hc
  refine h.keeps (Q := fun d => d.claims.get? id = some claim →
    db.claims.get? id = some claim ∨ claim.batchId = batchId) ?_ .inl
  intro d s hs hd hg
  cases hs with
  | ledger | batch => exact hd hg
  | claim k row hr =>
    rcases of_get?_insert hg with hold | ⟨_, rfl⟩
    · exact hd hold
    · exact .inr hr

def System.takes (s : System) (captured : Captured) : Prop :=
  ∃ pass rest, s.pass = some pass ∧ pass.pending = captured :: rest

theorem SystemOk.membership_eq (h : SystemOk host node s)
    (hp : s.pass = some pass) (hl : pass.loan = true) {g : Nat} {membership : Membership}
    (hf : pass.membership = some (g, membership)) : membership = s.db.fleetMembership := by
  obtain ⟨membership', hc⟩ := h.current pass hp hl
  obtain ⟨hg, _⟩ : g = s.db.fleetGeneration ∧ membership = membership' := by
    simpa [hf] using hc
  exact (h.fresh pass hp _ _ hf).2 hg

theorem SystemOk.turn (h : SystemOk host node s) (hs : AdmissionStep host node s .take t) :
    ∃ captured taken, s.takes captured ∧
    Turn host s.db.fleetMembership s.db captured (taken, t.db) := by
  cases hs with
  | @take db pass generation membership captured rest hl hf hp =>
    have hm : membership = db.fleetMembership := h.membership_eq rfl hl hf
    subst hm
    exact ⟨captured, _, ⟨pass, rest, rfl, hp⟩, takeEnvelope_turn _ _ db captured⟩

section
variable (h : Turn host membership db captured (taken, db'))
include h

theorem Turn.claims {id : String} (hn : db'.claims.get? id = some claim)
    (hold : db.claims.get? id ≠ some claim) :
    claim.batchId = captured.envelope.headerBatchId host ∧ StillCaptured db captured ∧
      fleetAdmissionHold db membership captured.envelope.id = none := by
  cases h with
  | skipped => exact absurd hn hold
  | held _ _ via | invalid _ _ via => rw [(quiet_via via).1] at hn; exact absurd hn hold
  | admitted hc ha _ via =>
    exact ⟨(claims_of_writes via hn).resolve_left hold, hc, ha⟩

theorem Turn.eq_of_changed (hh : ¬ StillCaptured db captured) : db' = db := by
  cases h with
  | skipped => rfl
  | held hc | admitted hc | invalid hc => exact absurd hc hh

theorem Turn.held_of_hold (hc : StillCaptured db captured)
    {reason : HoldReason}
    (hh : fleetAdmissionHold db membership captured.envelope.id = some reason) :
    db'.claims = db.claims ∧ db'.batches = db.batches ∧
    db'.ledger.holds.get? captured.envelope.id = some reason := by
  cases h with
  | skipped hnoCaptured => exact absurd hc hnoCaptured
  | admitted _ ha | invalid _ ha => rw [hh] at ha; cases ha
  | held _ hr via stored =>
    rw [hh] at hr
    cases hr
    exact ⟨(quiet_via via).1, (quiet_via via).2.1, stored⟩

end

theorem claims_background {label : Label host node}
    (hs : AdmissionStep host node s label t) (hc : ∀ transaction, label ≠ .commit transaction)
    (ht : label ≠ .take) : t.db.claims = s.db.claims := by
  cases hs with
  | commit transaction => exact absurd rfl (hc transaction)
  | take => exact absurd rfl ht
  | receive _ hr => exact claims_receives (receiveExchange_via hr)
  | finish => rfl
  | _ => rfl

/-- A background step writes claims only when it takes an envelope whose row is the captured one
and that the membership of that very store lets in, and then only claims of its batch. An
envelope that is not let in is held, and one whose row changed or was dropped is skipped. -/
theorem claims_written_under_current_authority {labels : List (Label host node)} {s t : System}
    {label : Label host node} (hrun : (admission host node).run {} labels = some s)
    (hstep : (admission host node).step s label = some t)
    (hcommit : ∀ transaction, label ≠ .commit transaction) :
    (∀ id claim, t.db.claims.get? id = some claim → s.db.claims.get? id ≠ some claim →
      label = .take ∧ ∃ captured, s.takes captured ∧ StillCaptured s.db captured ∧
        claim.batchId = captured.envelope.headerBatchId host ∧
        Authorized host node s.db captured.envelope.id) ∧
    (∀ captured, label = .take → s.takes captured → (¬ StillCaptured s.db captured → t.db = s.db) ∧
      (StillCaptured s.db captured → ¬ Authorized host node s.db captured.envelope.id →
        t.db.claims = s.db.claims ∧ t.db.batches = s.db.batches ∧
        t.db.ledger.holds.get? captured.envelope.id =
            some (holdReason s.db captured.envelope.id))) := by
  have ho := systemOk_run hrun
  have hstep := admissionStep_of_step hstep
  constructor
  · intro id claim hw hold
    have hk : label = .take := by
      by_contra hne
      rw [claims_background hstep hcommit hne] at hw
      exact hold hw
    subst hk
    obtain ⟨captured, taken, htakes, ht⟩ := ho.turn hstep
    obtain ⟨hb, hc, ha⟩ := ht.claims hw hold
    refine ⟨rfl, captured, htakes, hc, hb, ?_⟩
    by_contra hn
    rw [fleetAdmissionHold_of_not_authorized ho.store hn] at ha
    cases ha
  · rintro captured rfl ⟨pass, rest, hp, hpending⟩
    obtain ⟨captured', taken, ⟨pass', rest', hp', hpending'⟩, ht⟩ := ho.turn hstep
    obtain rfl : pass = pass' := some.inj (hp.symm.trans hp')
    obtain ⟨rfl, _⟩ : captured = captured' ∧ rest = rest' := by simpa [hpending] using hpending'
    exact ⟨ht.eq_of_changed, fun hc hn =>
      ht.held_of_hold hc (fleetAdmissionHold_of_not_authorized ho.store hn)⟩

end

def delimited (chars : List Char) : List Char := chars.flatMap (fun c => ['1', c]) ++ ['0']

def plainBatch : ReplicaBatch where
  id := "batch/ada/1/header"
  origin := "ada"
  replicaSequence := 1
  previousHash := none
  hash := "header"
  acceptedAt := 5
  claims :=
    [{ id := "note", batchId := "batch/ada/1/header", subject := "task/1", kind := "task.noted"
       origin := "ada", actor := none, body := .null, predecessors := [], acceptedAt := 5 }]

def plainHost : Host where
  envelopeHash _ _ previousHash acceptedAt payload :=
    String.ofList (delimited previousHash.toList ++
    (delimited (List.replicate acceptedAt 'a') ++
      delimited (payload.map fun byte => Char.ofNat byte.toNat)))
  batchHeaderHash _ _ _ _ := "header"
  blobDigest _ := "digest"
  base64Error _ := "invalid symbol"
  decodePayload bytes :=
    if bytes = [1] then .ok { batch := plainBatch, blobs := [] } else .error "no batch"
  encodeRecord _ := .ok ()
  encodeColumns _ := .ok ()
  claimIdIsContentHash _ := .ok true
  classifyUnbound _ _ := some (.ok .valid)
  classify _ _ _ := .ok .valid
  verifySignature _ _ _ := true

def plainNode : Node where
  fleetId := "fleet"
  shardId := none
  schemaDigest := "schema"

def plainEnvelope (payload : List UInt8) : ReplicaEnvelope where
  id := ⟨"ada", 1, plainHost.envelopeHash "ada" 1 "" 5 [1]⟩
  previousHash := none
  acceptedAt := 5
  payload := .bytes payload

def plainExchange (payload : List UInt8) : ReplicationExchange where
  peer := "peer"
  fleetId := "fleet"
  shardId := none
  envelopes := [plainEnvelope payload]
  signatures := []

theorem note_written_under_current_authority : ∃ s t, (admission plainHost plainNode).run {}
        [.receive "peer" 7 (plainExchange [1]), .start, .fold, .openLoan] = some s ∧
      (admission plainHost plainNode).step s .take = some t ∧
      (t.db.claims.get? "note").isSome = true ∧ ∃ captured, s.takes captured ∧
      Authorized plainHost plainNode s.db captured.envelope.id := by
  have hw : (((admission plainHost plainNode).run {}
      [.receive "peer" 7 (plainExchange [1]), .start, .fold, .openLoan]).bind fun s =>
        ((admission plainHost plainNode).step s .take).map fun t =>
          ((s.db.claims.get? "note").isNone, (t.db.claims.get? "note").isSome)) =
              some (true, true) := by
    decide +kernel
  obtain ⟨s, hr, hs⟩ := bind_eq_some_iff.mp hw
  obtain ⟨t, hs, heq⟩ := map_eq_some_iff.mp hs
  simp only [Prod.mk.injEq, isNone_iff_eq_none] at heq
  obtain ⟨claim, hc⟩ := isSome_iff_exists.mp heq.2
  have ha := claims_written_under_current_authority hr hs (fun _ h => by cases h)
  obtain ⟨_, captured, ht, _, _, hat⟩ :=
    ha.1 "note" claim hc (by rw [heq.1]; simp)
  exact ⟨s, t, hr, hs, heq.2, captured, ht, hat⟩

end Smalltalk
