import Smalltalk.Store.Authority

/-!
# The first copy of an envelope decides its receipt

Receipt stores the first copy that arrives under an identity before any check of its bytes,
and ignores every later copy, the genuine one too.
-/

namespace Smalltalk

open List Option Table Machine

abbrev Content := Option String × Nat × EnvelopePayload

def ReplicaEnvelope.content (envelope : ReplicaEnvelope) : Content :=
  (envelope.previousHash, envelope.acceptedAt, envelope.payload)

def EnvelopeRow.content (row : EnvelopeRow) : Content :=
  (row.previousHash, row.acceptedAt, row.payload)

def EnvelopeRow.receipt (row : EnvelopeRow) : Nat × Nat × Content :=
  (row.rowid, row.receivedAt, row.content)

def Captured.receipt (captured : Captured) : Nat × Nat × Content :=
  (captured.rowid, captured.receivedAt, captured.envelope.content)

section
variable {host : Host} {node : Node}

def Label.copies (id : EnvelopeId) : Label host node → List ReplicaEnvelope
  | .receive relay _ exchange =>
    if exchange.accepted host node relay then exchange.envelopes.filter (·.id = id) else []
  | _ => []

def copies (id : EnvelopeId) (labels : List (Label host node)) : List ReplicaEnvelope :=
  labels.flatMap (·.copies id)

def ClaimKept (db : Db) (id : String) : Prop :=
  (db.claims.get? id).isSome = true ∨ (db.ledger.checkpointClaims.get? id).isSome = true

variable (host) in
/-- Admission of the envelope to this store takes every claim and degrades nothing. -/
def AdmitsWhole (db : Db) (envelope : ReplicaEnvelope) : Prop :=
  ∃ payload, preparePayload host envelope = .ok payload ∧ ∃ db',
    admitClaims host envelope.id payload.batch 0 payload.claims
      ((admitBlobs envelope.id payload.claims.length payload.blobs db false).1.exec
        (.insertBatch payload.batch.id payload.batch.row))
      (admitBlobs envelope.id payload.claims.length payload.blobs db false).2 = .ok (db', false) ∧
    ∀ prepared ∈ payload.claims, ClaimKept db' prepared.claim.id

variable (host) in
/-- The identity's row holds this copy's payload and is validated, and the copy's claims are
kept. -/
def AdmittedCopy (db : Db) (envelope : ReplicaEnvelope) : Prop :=
  ∃ row payload, db.envelopes.get? envelope.id = some row ∧ row.payload = envelope.payload ∧
    row.receiptState = .validated ∧ preparePayload host envelope = .ok payload ∧
    ∀ prepared ∈ payload.claims, ClaimKept db prepared.claim.id

def Label.ofPass : Label host node → Prop
  | .commit _ => False
  | .receive _ _ _ => False
  | _ => True

def Label.background : Label host node → Prop
  | .commit _ => False
  | _ => True

/-! ## What the pass leaves of a row -/

inductive PassWrites : Statement → Prop where
  | ledger {f : Ledger → Ledger} (h : KeepsTombstones f) : PassWrites (.ledger f)
  | batch (id : String) (row : BatchRow) : PassWrites (.insertBatch id row)
  | claim (id : String) (row : ClaimRow) : PassWrites (.insertClaim id row)
  | mark (id : EnvelopeId) (f : ReceiptState × Option String → ReceiptState × Option String) :
      PassWrites (.markEnvelope id f)
  | update (id : EnvelopeId) (batchId : String) (degraded : Bool) :
      PassWrites (.updateEnvelope id (markAdmitted batchId degraded))

theorem PassWrites.of_writes {batchId : String} {s : Statement} (h : Writes batchId s) :
    PassWrites s := by
  cases h with
  | ledger h => exact .ledger h
  | batch row => exact .batch _ row
  | claim id row _ => exact .claim id row

variable {id : EnvelopeId} {membership : Membership} {db db' : Db} {captured : Captured}
    {s t : System}
  {label : Label host node} {relay : String} {now : Nat} {exchange : ReplicationExchange}
  {content : Option Content} {labels : List (Label host node)} {copy : ReplicaEnvelope}

theorem PassWrites.of_quiet {s : Statement} (h : Quiet id s) : PassWrites s := by
  cases h with
  | ledger h => exact .ledger h
  | mark _ => exact .mark id _

variable {result : Taken × Db} {envelope : ReplicaEnvelope} {row : EnvelopeRow}

theorem Turn.passWrites (h : Turn host membership db captured result) :
    db.Via PassWrites result.2 := by
  cases h with
  | skipped => exact .refl db
  | held _ _ via | invalid _ _ via => exact via.mono fun _ => .of_quiet
  | admitted _ _ _ via k =>
    dsimp only
    exact .trans (.trans (via.mono fun _ => .of_writes) (.exec (.update _ _ _))) (.exec (.ledger k))

theorem AdmissionStep.passWrites (hp : label.ofPass)
    (h : AdmissionStep host node s label t) : s.db.Via PassWrites t.db := by
  cases h with
  | commit | receive | reject => exact absurd hp id
  | take => exact (takeEnvelope_turn _ _ _ _).passWrites
  | finish => exact (finish_via ⟨"", 0, ""⟩).mono fun _ => .of_quiet
  | _ => exact .refl _

structure PassKept (db db' : Db) : Prop where
  signatures : db'.signatures = db.signatures
  checkpointClaims : db'.ledger.checkpointClaims = db.ledger.checkpointClaims
  checkpointEnvelopes : db'.ledger.checkpointEnvelopes = db.ledger.checkpointEnvelopes
  claims : ∀ id claim, db.claims.get? id = some claim → db'.claims.get? id = some claim
  receipts : ∀ id, (db'.envelopes.get? id).map EnvelopeRow.receipt =
    (db.envelopes.get? id).map EnvelopeRow.receipt

theorem receipt_update {envelopes : Table EnvelopeId EnvelopeRow}
    {f : EnvelopeRow → EnvelopeRow} (hf : ∀ row, (f row).receipt = row.receipt) (k : EnvelopeId) :
    ((envelopes.update id f).get? k).map EnvelopeRow.receipt =
      (envelopes.get? k).map EnvelopeRow.receipt := by
  rw [get?_update]
  split
  · rename_i heq
    subst heq
    cases envelopes.get? k with
    | none => rfl
    | some row => exact congrArg some (hf row)
  · rfl

theorem passKept (h : db.Via PassWrites db') : PassKept db db' := by
  refine h.keeps (Q := PassKept db) ?_ ⟨rfl, rfl, rfl, fun _ _ h => h, fun _ => rfl⟩
  intro d s hs hd
  cases hs with
  | ledger hf =>
    exact ⟨hd.signatures, (hf _).1.trans hd.checkpointClaims, (hf _).2.trans hd.checkpointEnvelopes,
      hd.claims, hd.receipts⟩
  | batch =>
    exact ⟨hd.signatures, hd.checkpointClaims, hd.checkpointEnvelopes, hd.claims, hd.receipts⟩
  | claim =>
    refine ⟨hd.signatures, hd.checkpointClaims, hd.checkpointEnvelopes, ?_, hd.receipts⟩
    intro id claim hc
    exact get?_insertClaim (hd.claims id claim hc)
  | mark | update =>
    refine ⟨hd.signatures, hd.checkpointClaims, hd.checkpointEnvelopes, hd.claims, ?_⟩
    intro id
    exact Eq.trans (receipt_update (by intro _; rfl) id) (hd.receipts id)

theorem ClaimKept.mono {id : String}
    (hl : ∀ claim, db.claims.get? id = some claim → db'.claims.get? id = some claim)
    (ht : db'.ledger.checkpointClaims = db.ledger.checkpointClaims) (h : ClaimKept db id) :
    ClaimKept db' id := by
  rcases h with hc | hm
  · left
    obtain ⟨claim, hc⟩ := isSome_iff_exists.mp hc
    rw [hl claim hc]
    rfl
  · right
    rwa [ht]

theorem PassKept.claimKept (h : PassKept db db') {id : String} (hk : ClaimKept db id) :
    ClaimKept db' id :=
  hk.mono (h.claims id) h.checkpointClaims

/-! ## What a receipt leaves of a row -/

theorem storeSignature_tables {key signature : String} :
    (storeSignature host node db id key signature).envelopes = db.envelopes ∧
      (storeSignature host node db id key signature).ledger = db.ledger := by
  unfold storeSignature
  split
  · exact ⟨rfl, rfl⟩
  · exact ⟨rfl, rfl⟩

theorem storeCarriedSignature_tables :
    (storeCarriedSignature host node db envelope).envelopes = db.envelopes ∧
      (storeCarriedSignature host node db envelope).ledger = db.ledger := by
  unfold storeCarriedSignature
  split
  · exact storeSignature_tables
  · exact ⟨rfl, rfl⟩

theorem receiveSignatures_tables (signatures : List ReplicaEnvelopeSignature) : ∀ db : Db,
    (signatures.foldl (receiveSignature host node) db).envelopes = db.envelopes ∧
      (signatures.foldl (receiveSignature host node) db).ledger = db.ledger := by
  induction signatures with
  | nil => intro db; exact ⟨rfl, rfl⟩
  | cons signature signatures ih =>
    intro db
    rw [foldl_cons, (ih _).1, (ih _).2, receiveSignature]
    split
    · exact ⟨rfl, rfl⟩
    · exact storeSignature_tables

theorem receiveEnvelope_ledger :
    (receiveEnvelope host node relay now db envelope).ledger = db.ledger := by
  unfold receiveEnvelope
  split
  · rfl
  · exact storeCarriedSignature_tables.2

/-- The row an envelope leaves behind: the old one, or its own as pending. -/
theorem receiveEnvelope_get? (host : Host) (node : Node) (relay : String) (now : Nat)
    (envelope : ReplicaEnvelope) {db : Db} {id : EnvelopeId}
    (hi : envelopeTombstoned db id = false) :
    ∃ r, (receiveEnvelope host node relay now db envelope).envelopes.get? id =
      (db.envelopes.get? id).or
        (if envelope.id = id then some (receivedRow relay now r envelope) else none) := by
  unfold receiveEnvelope
  split
  · rename_i ht
    refine ⟨0, ?_⟩
    have hn : envelope.id ≠ id := by
      intro heq
      rw [heq, hi] at ht
      cases ht
    rw [if_neg hn, or_none]
  · refine ⟨nextRowid (storeCarriedSignature host node db envelope).envelopes, ?_⟩
    change ((storeCarriedSignature host node db envelope).envelopes.insert _ _).get? id = _
    rw [storeCarriedSignature_tables.1, get?_insert]
    by_cases heq : id = envelope.id
    · subst heq
      rw [if_pos rfl, if_pos rfl]
      cases db.envelopes.get? envelope.id <;> rfl
    · rw [if_neg heq, if_neg (fun h => heq h.symm), or_none]

theorem receiveEnvelopes_get? (envelopes : List ReplicaEnvelope) :
    ∀ db : Db, envelopeTombstoned db id = false →
      (envelopes.foldl (receiveEnvelope host node relay now) db).ledger = db.ledger ∧
      ∃ r, (envelopes.foldl (receiveEnvelope host node relay now) db).envelopes.get? id =
        (db.envelopes.get? id).or
          ((envelopes.filter (·.id = id)).head?.map (receivedRow relay now r)) := by
  induction envelopes with
  | nil => intro db _; exact ⟨rfl, 0, (or_none).symm⟩
  | cons envelope envelopes ih =>
    intro db hi
    have hl : (receiveEnvelope host node relay now db envelope).ledger = db.ledger :=
      receiveEnvelope_ledger
    have hi' : envelopeTombstoned (receiveEnvelope host node relay now db envelope) id = false := by
      rwa [envelopeTombstoned, hl]
    obtain ⟨r, hg⟩ := receiveEnvelope_get? host node relay now envelope hi
    obtain ⟨hr, rowid', henvelopes⟩ := ih _ hi'
    refine ⟨hr.trans hl, ?_⟩
    rw [foldl_cons, henvelopes, hg]
    by_cases heq : envelope.id = id
    · refine ⟨r, ?_⟩
      rw [if_pos heq, filter_cons_of_pos (by simpa using heq), head?_cons, Option.or_assoc]
      rfl
    · refine ⟨rowid', ?_⟩
      rw [if_neg heq, or_none, filter_cons_of_neg (by simpa using heq)]

theorem receiveExchange_rejected {e : Error}
    (h : receiveExchange host node relay now exchange db = (.error e, db')) :
    exchange.accepted host node relay = false := by
  refine Bool.eq_false_iff.mpr fun ha => ?_
  have hok : receiveExchange host node relay now exchange db = (.ok (), _) :=
    receiveExchange_eq_ok_iff.mpr ⟨ha, rfl⟩
  rw [h] at hok
  cases hok

theorem receiveExchange_get? (hi : envelopeTombstoned db id = false)
    (h : receiveExchange host node relay now exchange db = (.ok (), db')) :
    db'.ledger = db.ledger ∧ ∃ r, db'.envelopes.get? id = (db.envelopes.get? id).or
      (((Label.receive relay now exchange : Label host node).copies id).head?.map
        (receivedRow relay now r)) := by
  obtain ⟨ha, rfl⟩ := receiveExchange_eq_ok_iff.mp h
  rw [(receiveSignatures_tables _ _).1, (receiveSignatures_tables _ _).2]
  simp only [Label.copies, ha, if_true]
  exact receiveEnvelopes_get? exchange.envelopes db hi

/-! ## The row is the first copy's -/

structure Tracks (id : EnvelopeId) (content : Option Content) (s : System) : Prop where
  alive : envelopeTombstoned s.db id = false
  stored : (s.db.envelopes.get? id).map EnvelopeRow.content = content
  captured : ∀ pass, s.pass = some pass → ∀ c ∈ pass.pending ++ pass.held, c.envelope.id = id →
    some c.receipt = (s.db.envelopes.get? id).map EnvelopeRow.receipt

variable {c : Captured} {batch : ReplicaBatch} {p : PreparedPayload} {f : ReplicaEnvelope}

theorem mem_admissionRetryQuery {ha subjectReferences : Bool} :
    c ∈ admissionRetryQuery db ha subjectReferences ↔
      ∃ id row, db.envelopes.get? id = some row ∧ (row.receiptState = .pending ∨
        hasRecord db id (·.retried ha subjectReferences) = true) ∧ c = capture id row := by
  unfold admissionRetryQuery
  simp only [mem_insertionSort, List.mem_map, mem_filter, decide_eq_true_eq, Prod.exists, mem_rows]
  constructor
  · rintro ⟨id, row, ⟨hr, ht⟩, rfl⟩
    exact ⟨id, row, hr, ht, rfl⟩
  · rintro ⟨id, row, hr, ht, rfl⟩
    exact ⟨id, row, ⟨hr, ht⟩, rfl⟩

theorem PassKept.tracks (hk : PassKept s.db t.db) (h : Tracks id content s)
    (hreceipt : ∀ pass, t.pass = some pass → ∀ c ∈ pass.pending ++ pass.held, c.envelope.id = id →
      some c.receipt = (s.db.envelopes.get? id).map EnvelopeRow.receipt) : Tracks id content t := by
  refine ⟨?_, ?_, ?_⟩
  · have := h.alive
    rwa [envelopeTombstoned, ← hk.checkpointEnvelopes] at this
  · have hn : ∀ o : Option EnvelopeRow, o.map EnvelopeRow.content =
        (o.map EnvelopeRow.receipt).map fun r => r.2.2 := by
      intro o
      cases o <;> rfl
    rw [hn, hk.receipts, ← hn]
    exact h.stored
  · intro pass hp c hc hi
    rw [hk.receipts]
    exact hreceipt pass hp c hc hi

theorem Tracks.pass (h : Tracks id content s) (hs : label.ofPass)
    (ht : AdmissionStep host node s label t) :
    Tracks id content t := by
  have hk := passKept (ht.passWrites hs)
  refine hk.tracks h ?_
  cases ht with
  | commit | receive | reject => exact absurd hs not_false
  | start =>
    intro pass hp c hc hi
    cases hp
    obtain ⟨id', row, hr, _, rfl⟩ := mem_admissionRetryQuery.mp (by simpa [startPass] using hc)
    obtain rfl : id' = id := hi
    rw [hr]
    rfl
  | fold | stale | openLoan | closeLoan => intro pass hp c hc; cases hp; exact h.captured _ rfl c hc
  | finish => intro pass hp; cases hp
  | @again db pass hd =>
    intro pass' hp c hc
    cases hp
    exact h.captured pass rfl c (by simpa using mem_append_right pass.pending (by simpa using hc))
  | @take db pass generation membership captured rest hl hf hn =>
    intro pass' hp c hc
    cases hp
    refine h.captured pass rfl c ?_
    simp only [mem_append] at hc ⊢
    rw [hn]
    rcases hc with hrest | hh
    · exact .inl (mem_cons_of_mem _ hrest)
    · split at hh
      · rcases mem_append.mp hh with hh | hh
        · exact .inr hh
        · exact .inl (by simp_all)
      · exact .inr hh

theorem Tracks.receive (h : Tracks id content s)
    (hexchange : receiveExchange host node relay now exchange s.db = (.ok (), db)) :
    Tracks id
      (content.or (((Label.receive relay now exchange : Label host node).copies id).head?.map
      ReplicaEnvelope.content)) { s with db } := by
  obtain ⟨hl, rowid, hg⟩ := receiveExchange_get? h.alive hexchange
  refine ⟨?_, ?_, ?_⟩
  · have := h.alive
    rwa [envelopeTombstoned, ← hl] at this
  · rw [← h.stored, hg, map_or, Option.map_map]
    rfl
  · intro pass hs c hc hi
    have hold := h.captured pass hs c hc hi
    obtain ⟨row, hr, hp⟩ := map_eq_some_iff.mp hold.symm
    rw [hg, hr, some_or, map_some, hp]

theorem Label.copies_ofPass (h : label.ofPass) (id : EnvelopeId) : label.copies id = [] := by
  cases label with
  | receive => exact absurd h not_false
  | _ => rfl

theorem Tracks.step (h : Tracks id content s) (hb : label.background)
    (hs : (admission host node).step s label = some t) :
    Tracks id (content.or ((label.copies id).head?.map ReplicaEnvelope.content)) t := by
  by_cases hp : label.ofPass
  · rw [Label.copies_ofPass hp, head?_nil, map_none, or_none]
    exact h.pass hp (admissionStep_of_step hs)
  · cases label with
    | commit => exact absurd hb not_false
    | receive relay now exchange =>
      simp only [admission, admissionStep, ite_none_left_eq_some, some.injEq] at hs
      obtain ⟨_, rfl⟩ := hs
      rcases receiveExchange_cases relay now exchange s.db with ⟨db, hc⟩ | ⟨e, hr⟩
      · rw [hc]
        exact h.receive hc
      · rw [hr]
        simp only [Label.copies, receiveExchange_rejected hr, Bool.false_eq_true, if_false,
          head?_nil, map_none, or_none]
        exact h
    | _ => exact absurd trivial hp

theorem Tracks.run (hb : ∀ label ∈ labels, label.background) :
    ∀ {content : Option Content} {s t : System}, Tracks id content s →
      (admission host node).run s labels = some t →
      Tracks id (content.or ((copies id labels).head?.map ReplicaEnvelope.content)) t := by
  induction labels with
  | nil =>
    intro content s t h hr
    cases hr
    rwa [copies, flatMap_nil, head?_nil, map_none, or_none]
  | cons label labels ih =>
    intro content s t h hr
    obtain ⟨u, hs, hr⟩ := run_cons_eq_some.mp hr
    have hf := h.step (hb label mem_cons_self) hs
    have htracks := ih (fun l hl => hb l (mem_cons_of_mem _ hl)) hf hr
    rwa [Option.or_assoc, ← map_or, ← head?_append] at htracks

/-! ## A validated row was prepared -/

def envelopeOf (id : EnvelopeId) (content : Content) : ReplicaEnvelope where
  id := id
  previousHash := content.1
  acceptedAt := content.2.1
  payload := content.2.2

theorem preparePayload_envelopeOf (envelope : ReplicaEnvelope) :
    preparePayload host (envelopeOf envelope.id envelope.content) = preparePayload host envelope :=
  rfl

variable (host) in
def Vetted (id : EnvelopeId) (s : System) : Prop :=
  ∀ row, s.db.envelopes.get? id = some row → row.receiptState = .validated →
    ∃ payload, preparePayload host (envelopeOf id row.content) = .ok payload

theorem quiet_get? {k : EnvelopeId} (h : db.Via (Quiet id) db') (hn : k ≠ id) :
    db'.envelopes.get? k = db.envelopes.get? k := by
  refine h.keeps (Q := fun d => d.envelopes.get? k = db.envelopes.get? k) ?_ rfl
  intro d s hs hd
  cases hs with
  | ledger _ => exact hd
  | mark _ =>
    change (d.envelopes.update id _).get? k = _
    rw [get?_update, if_neg hn, hd]

theorem quiet_validated (h : db.Via (Quiet id) db')
    (hr : db'.envelopes.get? id = some row) (hl : row.receiptState = .validated) :
    ∃ old, db.envelopes.get? id = some old ∧ old.receiptState = .validated := by
  refine h.keeps (Q := fun d => ∀ row, d.envelopes.get? id = some row →
    row.receiptState = .validated → ∃ old, db.envelopes.get? id = some old ∧
    old.receiptState = .validated)
    ?_ (fun row hr hv => ⟨row, hr, hv⟩) row hr hl
  intro d s hs hd row hr hv
  cases hs with
  | ledger _ => exact hd row hr hv
  | mark hf =>
    change (d.envelopes.update id _).get? id = some row at hr
    rw [get?_update, if_pos rfl] at hr
    obtain ⟨old, hold, rfl⟩ := map_eq_some_iff.mp hr
    exact hd old hold (hf _ hv)

theorem Turn.get?_other
    (h : Turn host membership db captured result) {id : EnvelopeId}
    (hn : id ≠ captured.envelope.id) :
    result.2.envelopes.get? id = db.envelopes.get? id := by
  cases h with
  | skipped => rfl
  | held _ _ via | invalid _ _ via => exact quiet_get? via hn
  | @admitted _ _ _ _ mid degraded via f _ =>
    change (mid.envelopes.update _ _).get? id = _
    rw [get?_update, if_neg hn, writes_via_envelopes via]

theorem Turn.validated (h : Turn host membership db captured result)
    (hr : result.2.envelopes.get? captured.envelope.id = some row)
    (hv : row.receiptState = .validated) :
    (∃ old, db.envelopes.get? captured.envelope.id = some old ∧ old.receiptState = .validated) ∨
      ∃ payload, preparePayload host captured.envelope = .ok payload := by
  cases h with
  | skipped => exact .inl ⟨row, hr, hv⟩
  | held _ _ via | invalid _ _ via => exact .inl (quiet_validated via hr hv)
  | admitted _ _ p => exact .inr ⟨_, p⟩

theorem content_of_receipt {row' : EnvelopeRow}
    (hr : db.envelopes.get? id = some row) (hr' : db'.envelopes.get? id = some row')
    (h : (db'.envelopes.get? id).map EnvelopeRow.receipt =
      (db.envelopes.get? id).map EnvelopeRow.receipt) :
    row'.content = row.content := by
  rw [hr, hr'] at h
  exact congrArg (fun r => r.2.2) (some.inj h)

theorem Vetted.step (h : Vetted host id s) (htracks : Tracks id content s) (hb : label.background)
    (hs : AdmissionStep host node s label t) : Vetted host id t := by
  cases hs with
  | commit => exact absurd hb not_false
  | receive _ hexchange =>
    obtain ⟨_, rowid, hg⟩ := receiveExchange_get? htracks.alive hexchange
    intro row hr hl
    change _ = some row at hr
    rw [hg, or_eq_some_iff] at hr
    rcases hr with hold | ⟨_, hn⟩
    · exact h row hold hl
    · obtain ⟨envelope, _, rfl⟩ := map_eq_some_iff.mp hn
      cases hl
  | @take db pass generation membership captured rest hloan hf hpending =>
    intro row hr hl
    have ht : Turn host membership db captured _ :=
      takeEnvelope_turn pass.retrySubjectReferences _ _ _
    have hc := (passKept ht.passWrites).receipts id
    by_cases hi : id = captured.envelope.id
    · subst hi
      rcases ht.validated hr hl with ⟨old, hold, hv⟩ | hpayload
      · rw [content_of_receipt hold hr hc]
        exact h old hold hv
      · have hp := htracks.captured pass rfl captured (by simp [hpending]) rfl
        change _ = (db.envelopes.get? _).map _ at hp
        obtain ⟨old, hold, hreceipt⟩ := map_eq_some_iff.mp hp.symm
        rw [content_of_receipt hold hr hc, show old.content = captured.envelope.content from
          congrArg (fun r => r.2.2) hreceipt]
        exact hpayload
    · change (takeEnvelope host _ membership db captured).2.envelopes.get? id = some row at hr
      rw [ht.get?_other hi] at hr
      exact h row hr hl
  | _ => exact h

/-! ## The genuine copy is admitted whole -/

theorem takeEnvelope_of_admitsWhole {retry : Bool} (hi : captured.envelope.id = copy.id)
    (hn : captured.envelope.content = copy.content) (hcaptured : StillCaptured db captured)
    (hw : AdmitsWhole host db copy) (hr : db.envelopes.get? copy.id = some row)
    (hcontent : row.content = copy.content) (hstate : row.receiptState ≠ .degraded) :
    let result := takeEnvelope host retry membership db captured
    (result.1 = .held ∧ fleetAdmissionHold db membership copy.id ≠ none ∧
        result.2.envelopes.get? copy.id = db.envelopes.get? copy.id) ∨
      AdmittedCopy host result.2 copy := by
  obtain ⟨payload, hp, db', hc, hk⟩ := hw
  have hpayload : preparePayload host captured.envelope = .ok payload := by
    rw [← preparePayload_envelopeOf, hi, hn, preparePayload_envelopeOf, hp]
  unfold takeEnvelope
  simp only [hi]
  rw [if_neg (not_not.mpr (admissionEnvelopeRow_eq_some.mpr hcaptured))]
  cases hh : fleetAdmissionHold db membership copy.id with
  | some r =>
    left
    refine ⟨rfl, by simp, ?_⟩
    cases retry with
    | false => rfl
    | true =>
      change (db.envelopes.update copy.id _).get? copy.id = _
      rw [get?_update, if_pos rfl, hr]
      simp [hstate]
  | none =>
    right
    have ha : admitPreparedEnvelope host copy.id (preparePayload host captured.envelope) db =
        .ok (db'.exec (.updateEnvelope copy.id (markAdmitted payload.batch.id false))) := by
      rw [hpayload]
      unfold admitPreparedEnvelope
      simp only [hc]
      rfl
    simp only [ha]
    have hv := admission_via hp hc
    refine ⟨markAdmitted payload.batch.id false row, payload, ?_, ?_, rfl, hp, ?_⟩
    · change (db'.envelopes.update copy.id _).get? copy.id = _
      rw [get?_update, if_pos rfl, writes_via_envelopes hv, hr]
      rfl
    · exact congrArg (fun c => c.2.2) hcontent
    · exact hk

theorem Tracks.stillCaptured (h : Tracks id content s) {pass : Pass} (hp : s.pass = some pass)
    (hc : c ∈ pass.pending ++ pass.held) (hi : c.envelope.id = id) :
    StillCaptured s.db c ∧ ∃ row, s.db.envelopes.get? id = some row ∧
    row.content = c.envelope.content := by
  obtain ⟨row, hr, hreceipt⟩ := map_eq_some_iff.mp (h.captured pass hp c hc hi).symm
  obtain ⟨hw, heq, hn⟩ : row.rowid = c.rowid ∧ row.receivedAt = c.receivedAt ∧
      row.content = c.envelope.content := by
    simpa [EnvelopeRow.receipt, Captured.receipt] using hreceipt
  refine ⟨⟨hi ▸ h.alive, row, hi ▸ hr, ?_, ?_, hw, heq⟩, row, hr, hn⟩
  · exact congrArg (fun c => c.1) hn
  · exact congrArg (fun c => c.2.1) hn

theorem ClaimKept.step (hb : label.background)
    (hs : AdmissionStep host node s label t) {id : EnvelopeId}
    (ha : envelopeTombstoned s.db id = false) {claim : String} (h : ClaimKept s.db claim) :
    ClaimKept t.db claim := by
  by_cases hp : label.ofPass
  · exact (passKept (hs.passWrites hp)).claimKept h
  · cases hs with
    | commit => exact absurd hb not_false
    | receive _ hr =>
      refine h.mono ?_ (congrArg Ledger.checkpointClaims (receiveExchange_get? ha hr).1)
      intro row hw
      rwa [claims_receives (receiveExchange_via hr)]
    | reject => exact h
    | _ => exact absurd trivial hp

structure Whole (host : Host) (copy : ReplicaEnvelope) (s : System) : Prop where
  content : ∀ row, s.db.envelopes.get? copy.id = some row → row.content = copy.content
  receipt : ∀ row, s.db.envelopes.get? copy.id = some row →
    row.receiptState = .pending ∨ AdmittedCopy host s.db copy

theorem Whole.not_degraded (h : Whole host copy s)
    (hr : s.db.envelopes.get? copy.id = some row) : row.receiptState ≠ .degraded := by
  rcases h.receipt row hr with hp | ⟨row', _, hr', _, hv, _⟩
  · rw [hp]; intro h; cases h
  · obtain rfl : row = row' := some.inj (hr.symm.trans hr')
    rw [hv]; intro h; cases h

/-- A background step leaves the row as it is, or stores the first copy, or admits the genuine
copy. -/
theorem Whole.step_cases (h : Whole host copy s) (ht : Tracks copy.id content s)
    (hw : AdmitsWhole host s.db copy) (hb : label.background)
    (hs : AdmissionStep host node s label t) :
    AdmittedCopy host t.db copy ∨ t.db.envelopes.get? copy.id = s.db.envelopes.get? copy.id ∨
      s.db.envelopes.get? copy.id = none ∧
        ∀ row, t.db.envelopes.get? copy.id = some row → row.receiptState = .pending := by
  cases hs with
  | commit => exact absurd hb not_false
  | receive _ hv =>
    right
    obtain ⟨_, rowid, hg⟩ := receiveExchange_get? ht.alive hv
    cases hold : s.db.envelopes.get? copy.id with
    | some row => exact .inl (by rw [hg, hold, some_or])
    | none =>
      refine .inr ⟨rfl, fun row hr => ?_⟩
      change _ = some row at hr
      rw [hg, hold, none_or] at hr
      obtain ⟨envelope, _, rfl⟩ := map_eq_some_iff.mp hr
      rfl
  | @take db pass generation membership captured rest hl hf hp =>
    by_cases hi : captured.envelope.id = copy.id
    · obtain ⟨hcaptured, row, hr, hcontent⟩ := ht.stillCaptured rfl (by simp [hp]) hi
      have hc := h.content row hr
      rcases takeEnvelope_of_admitsWhole hi (hcontent.symm.trans hc) hcaptured hw hr hc
        (h.not_degraded hr) with ⟨_, _, hg⟩ | ha
      · exact .inr (.inl hg)
      · exact .inl ha
    · have hn : Turn host membership db captured _ :=
        takeEnvelope_turn pass.retrySubjectReferences _ _ _
      exact .inr (.inl (hn.get?_other fun heq => hi heq.symm))
  | _ => exact .inr (.inl rfl)

theorem AdmittedCopy.step (ha : AdmittedCopy host s.db copy) (h : Whole host copy s)
    (ht : Tracks copy.id content s) (hw : AdmitsWhole host s.db copy)
    (hb : label.background) (hs : AdmissionStep host node s label t) :
    AdmittedCopy host t.db copy := by
  obtain ⟨row, payload, hr, hy, hv, hpayload, hc⟩ := id ha
  rcases h.step_cases ht hw hb hs with ha' | hm | ⟨hn, _⟩
  · exact ha'
  · exact ⟨row, payload, hm.trans hr, hy, hv, hpayload, fun p hp =>
      (hc p hp).step hb hs ht.alive⟩
  · rw [hn] at hr
    cases hr

theorem Whole.step (h : Whole host copy s) (ht : Tracks copy.id content s)
    (hw : AdmitsWhole host s.db copy) (hb : label.background)
    (hs : AdmissionStep host node s label t)
    (hc : ∀ row, t.db.envelopes.get? copy.id = some row → row.content = copy.content) :
    Whole host copy t := by
  refine ⟨hc, fun row hr => ?_⟩
  rcases h.step_cases ht hw hb hs with ha | hm | ⟨_, hp⟩
  · exact .inr ha
  · rcases h.receipt row (hm ▸ hr) with hp | ha
    · exact .inl hp
    · exact .inr (ha.step h ht hw hb hs)
  · exact .inl (hp row hr)

theorem admitClaim_of_valid (id : EnvelopeId) (position : Nat) (d : Bool)
    {p : PreparedClaim} {db : Db} (hr : p.raw = .ok ()) (hc : p.columns = .ok ())
    (hv : finishClaimCheck host db batch p.claim p.check = .ok .valid) :
    ∃ db', admitClaim host id batch position p db d = .ok (db', d) ∧ ClaimKept db' p.claim.id := by
  unfold admitClaim
  simp only [hr, hv, hc]
  split
  · rename_i ht
    exact ⟨_, rfl, .inr ht⟩
  · refine ⟨_, rfl, .inl ?_⟩
    change ((db.claims.insert _ _).get? _).isSome = true
    rw [get?_insert, if_pos rfl]
    rfl

variable (host) in
structure ClaimValid (batch : ReplicaBatch) (prepared : PreparedClaim) : Prop where
  raw : prepared.raw = .ok ()
  columns : prepared.columns = .ok ()
  check : prepared.check = checkClaim host batch prepared.claim
  valid : ∀ db, finishClaimCheck host db batch prepared.claim prepared.check = .ok .valid

theorem admitClaims_of_valid {claims : List PreparedClaim}
    (h : ∀ prepared ∈ claims, ClaimValid host batch prepared) :
    ∀ (position : Nat) (db : Db) (d : Bool), ∃ db',
    admitClaims host id batch position claims db d = .ok (db', d) ∧
        ∀ prepared ∈ claims, ClaimKept db' prepared.claim.id := by
  induction claims with
  | nil => intro position db d; exact ⟨db, rfl, by simp⟩
  | cons prepared claims ih =>
    intro position db d
    have hc := h prepared mem_cons_self
    have hr : ∀ p ∈ claims, ClaimValid host batch p := fun p hp => h p (mem_cons_of_mem _ hp)
    obtain ⟨mid, ho, hkept⟩ := admitClaim_of_valid id position d hc.raw hc.columns (hc.valid db)
    obtain ⟨db', hm, hk⟩ := ih hr (position + 1) mid d
    have hv := admitClaims_via (fun p hp => (hr p hp).check) hm
    refine ⟨db', by simp only [admitClaims, ho, hm], ?_⟩
    intro p hp
    rcases mem_cons.mp hp with rfl | hp
    · exact (passKept (hv.mono fun _ => .of_writes)).claimKept hkept
    · exact hk p hp

/-- An envelope whose blobs and claims are valid in every store is admitted whole by every store. -/
theorem admitsWhole_of_valid (hp : preparePayload host envelope = .ok p)
    (hl : ∀ blob ∈ p.blobs, blob.valid = true)
    (hc : ∀ prepared ∈ p.claims, ClaimValid host p.batch prepared) (db : Db) :
    AdmitsWhole host db envelope := by
  have hu : ∀ blobs : List PreparedBlob, (∀ blob ∈ blobs, blob.valid = true) →
      ∀ position db, (admitBlobs envelope.id position blobs db false).2 = false := by
    intro blobs
    induction blobs with
    | nil => intro _ position db; rfl
    | cons blob blobs ih =>
      intro hv position db
      rw [admitBlobs, if_pos (hv blob mem_cons_self)]
      exact ih (fun b hb => hv b (mem_cons_of_mem _ hb)) _ _
  refine ⟨p, hp, ?_⟩
  rw [hu p.blobs hl]
  exact admitClaims_of_valid hc _ _ _

/-! ## A whole pass decides every envelope -/

def Awaits (host : Host) (node : Node) (copy : ReplicaEnvelope) (s : System) : Prop :=
  ∃ pass, s.pass = some pass ∧
    (AdmittedCopy host s.db copy ∨ (∃ c ∈ pass.pending, c.envelope.id = copy.id) ∨
    (∃ c ∈ pass.held, c.envelope.id = copy.id) ∧
      (pass.membershipChanged = false → ¬ Authorized host node s.db copy.id))

theorem authorized_congr (hm : db'.fleetMembership = db.fleetMembership)
    (hs : db'.signatures = db.signatures) :
    Authorized host node db' id ↔ Authorized host node db id := by
  unfold Authorized
  rw [hm, hs]

theorem authorized_take (ho : SystemOk host node s) {captured : Captured} {membership : Membership}
    (ht : Turn host membership s.db captured result)
    (hq : ¬ (result.1 = .admitted ∧
      envelopeCarriesFleetClaims result.2 captured.envelope.id = true))
    {id : EnvelopeId} : Authorized host node result.2 id ↔ Authorized host node s.db id :=
  authorized_congr (ht.via.fleetMembership_eq (ht.generation_eq ho.store hq))
    (passKept ht.passWrites).signatures

theorem awaits_start (h : Whole host copy ⟨db, none⟩)
    (hr : (db.envelopes.get? copy.id).isSome = true) :
    Awaits host node copy ⟨db, some (startPass node db)⟩ := by
  obtain ⟨row, hr⟩ := isSome_iff_exists.mp hr
  refine ⟨_, rfl, ?_⟩
  rcases h.receipt row hr with hp | ha
  · refine .inr (.inl ⟨capture copy.id row, ?_, rfl⟩)
    exact mem_admissionRetryQuery.mpr ⟨copy.id, row, hr, .inl hp, rfl⟩
  · exact .inl ha

def Label.within : Label host node → Prop
  | .fold | .openLoan | .take | .closeLoan | .again => True
  | _ => False

theorem Label.within.ofPass (h : label.within) : label.ofPass := by
  cases label with
  | commit => exact h
  | receive => exact h
  | _ => trivial

theorem Label.ofPass.background (h : label.ofPass) : label.background := by
  cases label with
  | commit => exact h
  | _ => trivial

theorem Awaits.take {pass : Pass} {g : Nat} {r : List Captured}
    (h : Awaits host node copy ⟨db, some pass⟩) (ho : SystemOk host node ⟨db, some pass⟩)
    (hw : Whole host copy ⟨db, some pass⟩) (htracks : Tracks copy.id content ⟨db, some pass⟩)
    (hh : AdmitsWhole host db copy) (hl : pass.loan = true)
    (hf : pass.membership = some (g, membership)) (hp : pass.pending = captured :: r) :
    Awaits host node copy (pass.take host membership captured r db) := by
  have ht : Turn host membership db captured _ :=
    takeEnvelope_turn pass.retrySubjectReferences _ _ _
  have hm : membership = db.fleetMembership := ho.membership_eq rfl hl hf
  obtain ⟨pass', hs', hcopy⟩ := h
  obtain rfl : pass = pass' := some.inj hs'
  refine ⟨_, rfl, ?_⟩
  rcases hcopy with hd | ⟨c, hc, hi⟩ | ⟨⟨c, hc, hi⟩, hn⟩
  · have hstep : AdmissionStep host node ⟨db, some pass⟩ .take _ := .take hl hf hp
    have hb : (Label.take : Label host node).background := trivial
    exact .inl (hd.step hw htracks hh hb hstep)
  · rw [hp] at hc
    rcases mem_cons.mp hc with rfl | hc
    · obtain ⟨hcaptured, row, hr, hcontent⟩ := htracks.stillCaptured rfl (by simp [hp]) hi
      have hcontent' := hw.content row hr
      rcases takeEnvelope_of_admitsWhole hi (hcontent.symm.trans hcontent') hcaptured hh hr
        hcontent' (hw.not_degraded hr) with ⟨henvelope, hhold, _⟩ | hd
      · refine .inr (.inr ⟨⟨c, ?_, hi⟩, fun _ ha => hhold ?_⟩)
        · rw [if_pos henvelope]
          exact mem_append_right _ mem_cons_self
        · rw [hm]
          refine fleetAdmissionHold_of_authorized ((authorized_take ho ht ?_).mp ha)
          rw [henvelope]
          exact fun h => nomatch h.1
      · exact .inl hd
    · exact .inr (.inl ⟨c, hc, hi⟩)
  · refine .inr (.inr ⟨⟨c, ?_, hi⟩, fun hu ha => ?_⟩)
    · dsimp only
      split
      · exact mem_append_left _ hc
      · exact hc
    · simp only [Bool.or_eq_false_iff, decide_eq_false_iff_not] at hu
      exact hn hu.1 ((authorized_take ho ht hu.2).mp ha)

theorem Awaits.step (h : Awaits host node copy s) (ho : SystemOk host node s)
    (hw : Whole host copy s) (hr : Tracks copy.id content s) (hh : AdmitsWhole host s.db copy)
    (ht : label.within) (hstep : AdmissionStep host node s label t) : Awaits host node copy t := by
  cases hstep with
  | commit | receive | reject | start | finish => exact absurd ht not_false
  | take hl hf hn => exact h.take ho hw hr hh hl hf hn
  | again hd =>
    obtain ⟨pass, hp, hs⟩ := h
    cases hp
    refine ⟨_, rfl, ?_⟩
    rcases hs with ha | ⟨c, hc, _⟩ | ⟨hheld, _⟩
    · exact .inl ha
    · rw [hd] at hc
      cases hc
    · exact .inr (.inl hheld)
  | _ =>
    obtain ⟨pass, hp, hs⟩ := h
    cases hp
    exact ⟨_, rfl, hs⟩

theorem Awaits.finish (h : Awaits host node copy s)
    (hs : AdmissionStep host node s .finish t) (ha : Authorized host node t.db copy.id) :
    AdmittedCopy host t.db copy := by
  cases hs with
  | finish hd hf ht =>
    obtain ⟨pass, hp, hcopy'⟩ := h
    cases hp
    rcases hcopy' with hcopy | ⟨c, hc, _⟩ | ⟨⟨c, hc, _⟩, hn⟩
    · exact hcopy
    · rw [hd] at hc
      cases hc
    · have hu := ht.resolve_right (ne_nil_of_mem hc)
      exact absurd ha (hn hu)

theorem vetted_run (hc : ∀ label ∈ labels, label.background) :
    ∀ {content : Option Content} {s t : System}, Tracks id content s → Vetted host id s →
      (admission host node).run s labels = some t → Vetted host id t := by
  induction labels with
  | nil => intro content s t _ h hr; cases hr; exact h
  | cons label labels ih =>
    intro content s t ht h hr
    obtain ⟨u, hs, hr⟩ := run_cons_eq_some.mp hr
    have hb := hc label mem_cons_self
    exact ih (fun l hl => hc l (mem_cons_of_mem _ hl)) (ht.step hb hs)
      (h.step ht hb (admissionStep_of_step hs)) hr

theorem Tracks.content_of_some (h : Tracks id content s) {c : Content} (hc : ∀ x ∈ content, x = c)
    (hr : s.db.envelopes.get? id = some row) : row.content = c := by
  have := h.stored
  rw [hr] at this
  exact hc _ this.symm

variable (host node) in
def AdmitsThroughout (s : System) (labels : List (Label host node)) (copy : ReplicaEnvelope) :
    Prop :=
  ∀ front u, front <+: labels → (admission host node).run s front = some u →
  AdmitsWhole host u.db copy

theorem AdmitsThroughout.head (h : AdmitsThroughout host node s labels copy) :
    AdmitsWhole host s.db copy :=
  h [] s nil_prefix rfl

theorem AdmitsThroughout.tail {u : System} {f b : List (Label host node)}
    (h : AdmitsThroughout host node s (f ++ b) copy)
    (hr : (admission host node).run s f = some u) : AdmitsThroughout host node u b copy := by
  intro labels t hl hs
  refine h (f ++ labels) t ?_ (run_append_eq_some.mpr ⟨u, hr, hs⟩)
  obtain ⟨after, rfl⟩ := hl
  exact ⟨after, by rw [append_assoc]⟩

theorem whole_run (hc : ∀ label ∈ labels, label.background) :
    ∀ {content : Option Content} {s t : System}, Tracks copy.id content s → Whole host copy s →
      (∀ c ∈ content.or ((copies copy.id labels).head?.map ReplicaEnvelope.content),
        c = copy.content) →
      AdmitsThroughout host node s labels copy → (admission host node).run s labels = some t →
      Whole host copy t := by
  induction labels with
  | nil => intro content s t _ h _ _ hr; cases hr; exact h
  | cons label labels ih =>
    intro content s t ht h hf hh hr
    obtain ⟨u, hs, hr⟩ := run_cons_eq_some.mp hr
    have hb := hc label mem_cons_self
    have ht' := ht.step hb hs
    have hp : content.or ((copies copy.id (label :: labels)).head?.map ReplicaEnvelope.content) =
        (content.or ((label.copies copy.id).head?.map ReplicaEnvelope.content)).or
          ((copies copy.id labels).head?.map ReplicaEnvelope.content) := by
      rw [Option.or_assoc, ← map_or, ← head?_append]
      rfl
    rw [hp] at hf
    have hn : ∀ x ∈ content.or ((label.copies copy.id).head?.map ReplicaEnvelope.content),
        x = copy.content := by
      intro x hx
      exact hf x (or_eq_some_iff.mpr (.inl hx))
    have hwhole :=
      h.step ht hh.head hb (admissionStep_of_step hs) fun row hw => ht'.content_of_some hn hw
    have ho : (admission host node).run s [label] = some u := run_singleton.trans hs
    have hthroughout : AdmitsThroughout host node u labels copy := AdmitsThroughout.tail hh ho
    exact ih (fun l hl => hc l (mem_cons_of_mem _ hl)) ht' hwhole hf hthroughout hr

theorem awaits_run (hwithin : ∀ label ∈ labels, label.within) :
    ∀ {s t : System}, Tracks copy.id (some copy.content) s → Whole host copy s →
      SystemOk host node s → Awaits host node copy s → AdmitsThroughout host node s labels copy →
      (admission host node).run s labels = some t → Awaits host node copy t := by
  induction labels with
  | nil => intro s t _ _ _ h _ hr; cases hr; exact h
  | cons label labels ih =>
    intro s t ht hw ho h hh hr
    obtain ⟨u, hs, hr⟩ := run_cons_eq_some.mp hr
    have hb := hwithin label mem_cons_self
    have hn : (admission host node).run s [label] = some u := run_singleton.trans hs
    have ht' : Tracks copy.id (some copy.content) u := ht.step hb.ofPass.background hs
    have hs := admissionStep_of_step hs
    have hw' := hw.step ht hh.head hb.ofPass.background hs
      fun row hrow => ht'.content_of_some (fun x hx => (some.inj hx).symm) hrow
    have ha := h.step ho hw ht hh.head hb hs
    exact ih (fun l hl => hwithin l (mem_cons_of_mem _ hl)) ht' hw' (ho.step hs) ha
      (AdmitsThroughout.tail hh hn) hr

structure Unknown (id : EnvelopeId) (s : System) : Prop where
  row : s.db.envelopes.get? id = none
  tombstone : envelopeTombstoned s.db id = false
  captured : ∀ pass, s.pass = some pass → ∀ c ∈ pass.pending ++ pass.held, c.envelope.id ≠ id

theorem Unknown.tracks (h : Unknown id s) : Tracks id none s where
  alive := h.tombstone
  stored := by rw [h.row]; rfl
  captured := fun pass hp c hc hi => absurd hi (h.captured pass hp c hc)

variable (host) in
def CollisionFree : Prop :=
  ∀ writer sequence, Function.Injective fun x : String × Nat × List UInt8 =>
    host.envelopeHash writer sequence x.1 x.2.1 x.2.2

/-- What passes preparation under one identity is one content. -/
theorem content_eq_of_prepared (hh : CollisionFree host) {id : EnvelopeId} {c c' : Content}
    {p' : PreparedPayload} (h : preparePayload host (envelopeOf id c) = .ok p)
    (h' : preparePayload host (envelopeOf id c') = .ok p') : c = c' := by
  obtain ⟨bytes, decoded, hb, hc, hd, _, _, hp⟩ := preparePayload_eq_ok h
  obtain ⟨bytes', decoded', hb', hc', hd', _, _, hp'⟩ := preparePayload_eq_ok h'
  have hs : (c.1.getD "", c.2.1, bytes) = (c'.1.getD "", c'.2.1, bytes') :=
    hh id.writer id.sequence (hc.trans hc'.symm)
  simp only [Prod.mk.injEq] at hs
  obtain ⟨_, ha, rfl⟩ := hs
  obtain rfl : decoded = decoded' := Except.ok.inj (hd.symm.trans hd')
  exact Prod.ext (hp.symm.trans hp') (Prod.ext ha (hb.trans hb'.symm))

theorem first_of_admittedCopy (hh : CollisionFree host) {s t : System} {copy : ReplicaEnvelope}
    {labels : List (Label host node)} (hu : Unknown copy.id s)
    (hb : ∀ label ∈ labels, label.background) (hn : (admission host node).run s labels = some t)
    (ha : AdmittedCopy host t.db copy) (hf : (copies copy.id labels).head? = some f) :
    f.content = copy.content := by
  obtain ⟨row, payload, hr, _, hl, hp, _⟩ := ha
  have ht := Tracks.run hb hu.tracks hn
  have hv : Vetted host copy.id t := by
    refine vetted_run hb hu.tracks ?_ hn
    intro row hr
    rw [hu.row] at hr
    cases hr
  obtain ⟨p', hp'⟩ := hv row hr hl
  have hc : row.content = copy.content := by
    rw [← preparePayload_envelopeOf] at hp
    exact content_eq_of_prepared hh hp' hp
  rw [← hc]
  refine (ht.content_of_some ?_ hr).symm
  intro x hx
  rw [hf] at hx
  exact (some.inj hx).symm

/-- A whole pass over a store with the genuine copy ends with it admitted. -/
theorem admittedCopy_of_pass {within : List (Label host node)}
    (ht : Tracks copy.id (some copy.content) s) (hw : Whole host copy s) (hk : SystemOk host node s)
    (hwithin : ∀ label ∈ within, label.within)
    (hn : (admission host node).run s (.start :: (within ++ [.finish])) = some t)
    (hv : AdmitsThroughout host node s (.start :: (within ++ [.finish])) copy)
    (hat : Authorized host node t.db copy.id) : AdmittedCopy host t.db copy := by
  obtain ⟨u, hs, hp⟩ := run_cons_eq_some.mp hn
  obtain ⟨v, hrun, hf⟩ := run_append_eq_some.mp hp
  rw [run_singleton] at hf
  have hb : (Label.start : Label host node).background := trivial
  have ho : (admission host node).run s [.start] = some u := run_singleton.trans hs
  have hh : AdmitsThroughout host node u (within ++ [.finish]) copy := AdmitsThroughout.tail hv ho
  have ht' : Tracks copy.id (some copy.content) u := ht.step hb hs
  have hs := admissionStep_of_step hs
  have hw' :=
    hw.step ht hv.head hb hs fun row hr => ht'.content_of_some (fun x hx => (some.inj hx).symm) hr
  have ha : Awaits host node copy u := by
    have hr : (s.db.envelopes.get? copy.id).isSome = true := by
      have := ht.stored
      rw [← isSome_map, this]
      rfl
    cases hs
    exact awaits_start hw hr
  have he :=
    awaits_run hwithin ht' hw' (hk.step hs) ha
      (fun f u hle => hh f u (hle.trans (prefix_append _ _))) hrun
  exact he.finish (admissionStep_of_step hf) hat

theorem admittedCopy_of_first {before log within : List (Label host node)}
    (hrun : (admission host node).run {} before = some s)
    (hu : Unknown copy.id s) (hb : ∀ label ∈ log, label.background)
    (ht : ∀ label ∈ within, label.within)
    (hn : (admission host node).run s (log ++ (.start :: (within ++ [.finish]))) = some t)
    (hv : AdmitsThroughout host node s (log ++ (.start :: (within ++ [.finish]))) copy)
    (ha : Authorized host node t.db copy.id)
    (hf : (copies copy.id log).head? = some f) (hcontent : f.content = copy.content) :
    AdmittedCopy host t.db copy := by
  obtain ⟨u, hh, hs⟩ := run_append_eq_some.mp hn
  have hp : (none : Option Content).or ((copies copy.id log).head?.map ReplicaEnvelope.content) =
      some copy.content := by
    rw [hf, none_or, map_some, hcontent]
  have htracks : Tracks copy.id (some copy.content) u := hp ▸ Tracks.run hb hu.tracks hh
  have hw : Whole host copy u := by
    refine whole_run hb hu.tracks ⟨?_, ?_⟩ ?_ ?_ hh
    · intro row hr; rw [hu.row] at hr; cases hr
    · intro row hr; rw [hu.row] at hr; cases hr
    · intro c hc
      rw [hp] at hc
      exact (some.inj hc).symm
    · intro first u hle
      exact hv first u (hle.trans (prefix_append _ _))
  have ho := systemOk_run (run_append_eq_some.mpr ⟨s, hrun, hh⟩)
  exact admittedCopy_of_pass htracks hw ho ht hs (hv.tail hh) ha

/-- Copies of an identity arrive in any order, and a whole pass follows. A received copy that every
store of the run would admit whole is then the stored one, with its claims admitted, exactly
when the first copy received has its content. -/
theorem genuine_copy_admitted_iff_first (hhash : CollisionFree host)
    {before history within : List (Label host node)} {s t : System} {copy : ReplicaEnvelope}
    (hbefore : (admission host node).run {} before = some s) (hunknown : Unknown copy.id s)
    (hbackground : ∀ label ∈ history, label.background) (hwithin : ∀ label ∈ within, label.within)
    (hrun : (admission host node).run s (history ++ (.start :: (within ++ [.finish]))) = some t)
    (hreceived : copy ∈ copies copy.id history)
    (hvalid : AdmitsThroughout host node s (history ++ (.start :: (within ++ [.finish]))) copy)
    (hauthorized : Authorized host node t.db copy.id) : AdmittedCopy host t.db copy ↔
      ∀ first, (copies copy.id history).head? = some first → first.content = copy.content := by
  have hp : ∀ label : Label host node, label ∈ Label.start :: (within ++ [.finish]) →
      label.ofPass := by
    intro label hl
    simp only [mem_cons, mem_append, not_mem_nil, or_false] at hl
    rcases hl with rfl | hl | rfl
    · trivial
    · exact (hwithin label hl).ofPass
    · trivial
  constructor
  · intro ha first hf
    refine first_of_admittedCopy hhash hunknown ?_ hrun ha ?_
    · intro label hl
      rcases mem_append.mp hl with hl | hl
      · exact hbackground label hl
      · exact (hp label hl).background
    · rw [copies, flatMap_append, head?_append]
      rw [copies] at hf
      rw [hf, some_or]
  · intro hc
    obtain ⟨first, rest, hs⟩ := exists_cons_of_ne_nil (ne_nil_of_mem hreceived)
    have hf : (copies copy.id history).head? = some first := by rw [hs]; rfl
    exact admittedCopy_of_first hbefore hunknown hbackground hwithin hrun hvalid hauthorized hf
      (hc first hf)

end

theorem delimited_append_inj {l m x y : List Char} (h : delimited l ++ x = delimited m ++ y) :
    l = m ∧ x = y := by
  induction l generalizing m with
  | nil =>
    cases m with
    | nil => simpa [delimited] using h
    | cons c m => simp [delimited] at h
  | cons c l ih =>
    cases m with
    | nil => simp [delimited] at h
    | cons d m =>
      simp only [delimited, flatMap_cons, cons_append, nil_append, List.cons.injEq, true_and,
        append_assoc] at h
      obtain ⟨rfl, ht⟩ := h
      obtain ⟨rfl, rfl⟩ := ih (by simpa [delimited] using ht)
      exact ⟨rfl, rfl⟩

theorem plainHost_collisionFree : CollisionFree plainHost := by
  intro writer sequence ⟨previous, accepted, payload⟩ ⟨previous', accepted', payload'⟩ h
  have hl := String.ofList_injective h
  obtain ⟨hr, hl⟩ := delimited_append_inj hl
  obtain ⟨ha, hl⟩ := delimited_append_inj hl
  obtain ⟨hp, _⟩ := delimited_append_inj (x := []) (y := []) (by simpa using hl)
  have hb : Function.Injective fun byte : UInt8 => Char.ofNat byte.toNat := by
    intro a b hab
    have ht : ∀ byte : UInt8, (Char.ofNat byte.toNat).toNat = byte.toNat := by
      intro byte
      have hlt := byte.toNat_lt
      rw [Char.toNat_ofNat, if_pos (.inl (by omega))]
    apply UInt8.toNat_inj.mp
    rw [← ht a, ← ht b]
    exact congrArg Char.toNat hab
  refine Prod.ext ?_ (Prod.ext ?_ ?_)
  · exact String.toList_injective hr
  · simpa using congrArg List.length ha
  · exact map_injective_iff.mpr hb hp

theorem preparePayload_of {host : Host} {envelope : ReplicaEnvelope} {bytes : List UInt8}
    {p : ReplicaEnvelopePayload} (hb : envelope.payload = .bytes bytes)
    (hh : host.envelopeHash envelope.id.writer envelope.id.sequence (envelope.previousHash.getD "")
      envelope.acceptedAt bytes = envelope.id.hash) (hc : host.decodePayload bytes = .ok p)
    (hd : p.batch.origin = envelope.id.writer ∧ p.batch.replicaSequence = envelope.id.sequence ∧
      p.batch.previousHash = envelope.previousHash ∧ p.batch.acceptedAt = envelope.acceptedAt)
    (hv : verifyReplicaBatchHeader host p.batch = .ok ()) :
    preparePayload host envelope = .ok (preparedPayload host p) := by
  obtain ⟨ho, hs, hp, ha⟩ := hd
  unfold preparePayload
  simp [hb, hh, hc, ho, hs, hp, ha, hv]

theorem preparePayload_plainEnvelope : preparePayload plainHost (plainEnvelope [1]) =
    .ok (preparedPayload plainHost { batch := plainBatch, blobs := [] }) :=
  preparePayload_of rfl rfl rfl ⟨rfl, rfl, rfl, rfl⟩ (by decide +kernel)

theorem plain_admitsWhole (db : Db) : AdmitsWhole plainHost db (plainEnvelope [1]) := by
  refine admitsWhole_of_valid preparePayload_plainEnvelope ?_ ?_ db
  · intro b hb; cases hb
  · intro p hp
    obtain rfl := mem_singleton.mp hp
    exact ⟨rfl, rfl, rfl, fun _ => rfl⟩

def corruptFirst : List (Label plainHost plainNode) :=
  [.receive "peer" 7 (plainExchange [0]), .receive "peer" 8 (plainExchange [1])]

def genuineFirst : List (Label plainHost plainNode) :=
  [.receive "peer" 7 (plainExchange [1]), .receive "peer" 8 (plainExchange [0])]

def onePass : List (Label plainHost plainNode) := [.fold, .openLoan, .take, .closeLoan]

def wholePass : List (Label plainHost plainNode) := .start :: (onePass ++ [.finish])

theorem authorized_of_legacy {host : Host} {node : Node} {db : Db} {id : EnvelopeId}
    (h : db.fleetMembership.window id.writer id.sequence = .legacy) :
    Authorized host node db id := by
  unfold Authorized
  rw [h]
  trivial

/-- The corrupt copy came first: the genuine copy is never stored, though the
store would admit it at any time. -/
theorem corrupt_copy_poisons_receipt :
    ∃ t, (admission plainHost plainNode).run {} (corruptFirst ++ wholePass) = some t ∧
      plainEnvelope [1] ∈ copies (plainEnvelope [1]).id corruptFirst ∧
      AdmitsThroughout plainHost plainNode {} (corruptFirst ++ wholePass) (plainEnvelope [1]) ∧
      Authorized plainHost plainNode t.db (plainEnvelope [1]).id ∧ CollisionFree plainHost ∧
      ¬ AdmittedCopy plainHost t.db (plainEnvelope [1]) := by
  have he : ((admission plainHost plainNode).run {} (corruptFirst ++ wholePass)).map (fun t =>
      (t.db.fleetMembership.window "ada" 1,
        (t.db.envelopes.get? (plainEnvelope [1]).id).map (·.payload))) =
        some (.legacy, some (.bytes [0])) := by
    decide +kernel
  obtain ⟨t, hr, ht⟩ := map_eq_some_iff.mp he
  obtain ⟨hn, hp⟩ := Prod.mk.inj ht
  refine ⟨t, hr, ?_, fun _ u _ _ => plain_admitsWhole u.db, authorized_of_legacy hn,
    plainHost_collisionFree, ?_⟩
  · exact mem_cons_of_mem _ mem_cons_self
  · rintro ⟨row, _, hw, hs, _⟩
    rw [hw, map_some, hs] at hp
    exact absurd hp (by decide)

theorem genuine_first_copy_admitted :
    ∃ t, (admission plainHost plainNode).run {} (genuineFirst ++ wholePass) = some t ∧
      AdmittedCopy plainHost t.db (plainEnvelope [1]) := by
  have he : ((admission plainHost plainNode).run {} (genuineFirst ++ wholePass)).map (fun t =>
      t.db.fleetMembership.window "ada" 1) = some .legacy := by
    decide +kernel
  obtain ⟨t, hr, hw⟩ := map_eq_some_iff.mp he
  have hb : (admission plainHost plainNode).run {} [] = some {} := rfl
  refine ⟨t, hr, (genuine_copy_admitted_iff_first plainHost_collisionFree hb ⟨rfl, rfl, ?_⟩
    ?_ ?_ hr ?_ (fun _ u _ _ => plain_admitsWhole u.db) (authorized_of_legacy hw)).mpr ?_⟩
  · intro pass hp; cases hp
  · simp [genuineFirst, Label.background]
  · simp [onePass, Label.within]
  · exact mem_cons_self
  · intro first hf
    cases hf
    rfl

end Smalltalk
