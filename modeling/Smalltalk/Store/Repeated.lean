import Smalltalk.Store.Receipt

/-!
# Receiving an exchange twice

A page is stored whole or not at all. What it stored stays stored until a trim deletes it,
and a trim deletes only what is tombstoned.
-/

namespace Smalltalk

open List Option Table Db

variable {host : Host} {node : Node} {relay : String} {now : Nat} {exchange : ReplicationExchange}
    {db db' db'' : Db}
  {id : EnvelopeId} {key signature : String} {envelope : ReplicaEnvelope}

def EnvelopeKept (db : Db) (id : EnvelopeId) : Prop :=
  envelopeTombstoned db id = true ∨ db.envelopes.get? id ≠ none

def SignatureKept (db : Db) (id : EnvelopeId) (key : String) : Prop :=
  envelopeTombstoned db id = true ∨ db.signatures.get? (id, key) ≠ none

/-- The envelope and its verified signature are stored or tombstoned. -/
def EnvelopeReceived (host : Host) (node : Node) (db : Db) (envelope : ReplicaEnvelope) : Prop :=
  EnvelopeKept db envelope.id ∧ ∀ key signature, envelope.memberKey = some key →
    envelope.signature = some signature → verifies host node envelope.id key signature = true →
    SignatureKept db envelope.id key

def SignatureReceived (host : Host) (node : Node) (db : Db) (signature : ReplicaEnvelopeSignature) :
    Prop :=
  verifies host node signature.id signature.memberKey signature.signature = true →
    SignatureKept db signature.id signature.memberKey

def PageHeld (host : Host) (node : Node) (db : Db) (exchange : ReplicationExchange) : Prop :=
  (∀ envelope ∈ exchange.envelopes, EnvelopeReceived host node db envelope) ∧
    ∀ signature ∈ exchange.signatures, SignatureReceived host node db signature

/-- The statements between two receipts: a trim records a tombstone before it deletes rows. -/
def TrimSafe (db : Db) : Statement → Prop
  | .deleteEnvelope id | .deleteSignature id _ => envelopeTombstoned db id = true
  | .ledger f =>
    ∀ id, envelopeTombstoned db id = true →
    ((f db.ledger).checkpointEnvelopes.get? id).isSome = true
  | _ => True

def Trimmed : Db → Db → Prop :=
  Relation.ReflTransGen fun db db' => ∃ s, TrimSafe db s ∧ db' = db.exec s

/-- What the store holds of a tombstoned envelope stays as it is. -/
def Untouched (id : EnvelopeId) (db db' : Db) : Prop :=
  db'.ledger = db.ledger ∧ db'.envelopes.get? id = db.envelopes.get? id ∧
    ∀ key, db'.signatures.get? (id, key) = db.signatures.get? (id, key)

/-! ## What is kept -/

def Keeping (db db' : Db) : Prop :=
  (∀ id, EnvelopeKept db id → EnvelopeKept db' id) ∧ ∀ id key, SignatureKept db id key →
  SignatureKept db' id key

theorem Keeping.trans (h : Keeping db db') (h' : Keeping db' db'') : Keeping db db'' :=
  ⟨fun id hi => h'.1 id (h.1 id hi), fun id key hk => h'.2 id key (h.2 id key hk)⟩

theorem EnvelopeReceived.of_keeping (h : EnvelopeReceived host node db envelope)
    (hk : Keeping db db') :
    EnvelopeReceived host node db' envelope :=
  ⟨hk.1 _ h.1, fun key signature hy hs hv =>
    hk.2 _ _ (h.2 key signature hy hs hv)⟩

theorem SignatureReceived.of_keeping {signature : ReplicaEnvelopeSignature}
    (h : SignatureReceived host node db signature) (hk : Keeping db db') :
    SignatureReceived host node db' signature := fun hv => hk.2 _ _ (h hv)

theorem PageHeld.of_keeping (h : PageHeld host node db exchange) (hk : Keeping db db') :
    PageHeld host node db' exchange :=
  ⟨fun envelope he => (h.1 envelope he).of_keeping hk,
    fun signature hs => (h.2 signature hs).of_keeping hk⟩

theorem keeping_of_tables (hl : db'.ledger = db.ledger)
    (he : ∀ id, db.envelopes.get? id ≠ none → db'.envelopes.get? id ≠ none)
    (hs : ∀ k, db.signatures.get? k ≠ none → db'.signatures.get? k ≠ none) : Keeping db db' := by
  have ht : ∀ id, envelopeTombstoned db' id = envelopeTombstoned db id := by
    intro id
    rw [envelopeTombstoned, hl, envelopeTombstoned]
  constructor
  · exact fun id hi => hi.imp (fun h => (ht id).trans h) (he id)
  · exact fun id key hi => hi.imp (fun h => (ht id).trans h) (hs (id, key))

theorem keeping_exec {s : Statement} (h : TrimSafe db s) : Keeping db (db.exec s) := by
  have hs : ∀ {κ ρ : Type} [DecidableEq κ] (t : Table κ ρ) k, t.get? k ≠ none → t.get? k ≠ none :=
    fun _ _ h => h
  cases s with
  | insertEnvelope id row =>
    exact keeping_of_tables rfl (fun _ hk => get?_insert_ne_none.mpr (.inl hk)) (hs _)
  | insertSignature id key signature =>
    exact keeping_of_tables rfl (hs _) (fun _ hk => get?_insert_ne_none.mpr (.inl hk))
  | updateEnvelope | markEnvelope =>
    exact keeping_of_tables rfl (fun _ => get?_update_ne_none.mpr) (hs _)
  | deleteEnvelope id =>
    refine ⟨fun other ho => ?_, fun _ _ h => h⟩
    rcases ho with ht | henvelopes
    · exact .inl ht
    · by_cases heq : other = id
      · exact .inl (heq ▸ h)
      · refine .inr ?_
        simpa [exec, bump, get?_delete, heq] using henvelopes
  | deleteSignature id key =>
    refine ⟨fun _ h => h, fun other key' ho => ?_⟩
    rcases ho with ht | henvelopes
    · exact .inl ht
    · by_cases heq : other = id
      · exact .inl (heq ▸ h)
      · refine .inr ?_
        simpa [exec, bump, get?_delete, heq] using henvelopes
  | ledger f =>
    exact ⟨fun id hi => hi.imp (h id) fun h => h, fun id _ hi => hi.imp (h id) fun h => h⟩
  | _ => exact keeping_of_tables rfl (hs _) (hs _)

theorem Keeping.of_trimmed (h : Trimmed db db') : Keeping db db' := by
  induction h with
  | refl => exact ⟨fun _ h => h, fun _ _ h => h⟩
  | tail _ hs ih =>
    obtain ⟨s, hf, rfl⟩ := hs
    exact ih.trans (keeping_exec hf)

theorem Keeping.of_receives (h : db.Via (Receives host node) db') : Keeping db db' := by
  refine h.keeps (Q := Keeping db) (fun m s hs hm => hm.trans (keeping_exec ?_))
    ⟨fun _ h => h, fun _ _ h => h⟩
  cases hs <;> trivial

/-! ## The first receipt -/

theorem signatureKept_storeSignature (hv : verifies host node id key signature = true) :
    SignatureKept (storeSignature host node db id key signature) id key := by
  rw [storeSignature, if_pos hv]
  refine .inr ?_
  simp only [exec, bump, get?_insert]
  cases db.signatures.get? (id, key) <;> simp

theorem envelopeReceived (relay : String) (now : Nat) (db : Db) (envelope : ReplicaEnvelope) :
    EnvelopeReceived host node (receiveEnvelope host node relay now db envelope) envelope := by
  unfold receiveEnvelope
  split
  · rename_i ht
    exact ⟨.inl ht, fun _ _ _ _ _ => .inl ht⟩
  · constructor
    · refine .inr ?_
      simp only [exec, bump, get?_insert]
      cases (storeCarriedSignature host node db envelope).envelopes.get? envelope.id <;> simp
    · intro key signature hk hs hv
      refine (@Keeping.of_receives host node _ _ (.exec (.envelope rfl))).2 _ _ ?_
      simp only [storeCarriedSignature, hk, hs]
      exact signatureKept_storeSignature hv

theorem signatureReceived (db : Db) (signature : ReplicaEnvelopeSignature) :
    SignatureReceived host node (receiveSignature host node db signature) signature := by
  intro hv
  unfold receiveSignature
  split
  · rename_i ht
    exact .inl ht
  · exact signatureKept_storeSignature hv

/-- What one element of a page keeps after its own turn, it keeps after the page. -/
theorem foldl_kept {α : Type} {f : Db → α → Db}
    (hv : ∀ (db : Db) a, db.Via (Receives host node) (f db a)) {Q : α → Db → Prop}
    (ht : ∀ db a, Q a (f db a)) (hk : ∀ a db db', Keeping db db' → Q a db → Q a db') (as : List α) :
    ∀ db, ∀ a ∈ as, Q a (as.foldl f db) := by
  induction as with
  | nil => simp
  | cons first as ih =>
    intro db a ha
    rcases mem_cons.mp ha with rfl | ha
    · exact hk a _ _ (.of_receives (foldl_via hv as _)) (ht db a)
    · exact ih _ a ha

theorem pageHeld_receiveExchange
    (h : receiveExchange host node relay now exchange db = (.ok (), db')) :
    PageHeld host node db' exchange := by
  obtain ⟨-, rfl⟩ := receiveExchange_eq_ok_iff.mp h
  have hs : ∀ m, ∀ signature ∈ exchange.verifiedSignatures host node, SignatureReceived host node
      ((exchange.verifiedSignatures host node).foldl (receiveSignature host node) m) signature :=
    foldl_kept (f := receiveSignature host node) (Q := fun s db => SignatureReceived host node db s)
      (fun _ _ => receiveSignature_via) signatureReceived (fun _ _ _ hk h => h.of_keeping hk) _
  have hn : ∀ envelope ∈ exchange.envelopes,
      EnvelopeReceived host node
        (exchange.envelopes.foldl (receiveEnvelope host node relay now) db) envelope :=
    foldl_kept (f := receiveEnvelope host node relay now)
      (Q := fun e db => EnvelopeReceived host node db e)
      (fun _ _ => receiveEnvelope_via) (envelopeReceived relay now)
        (fun _ _ _ hk h => h.of_keeping hk) _ db
  refine ⟨fun envelope he => (hn envelope he).of_keeping ?_, fun signature hm hv => ?_⟩
  rotate_left
  · exact hs _ signature (mem_filter.mpr ⟨hm, hv⟩) hv
  exact .of_receives (foldl_via (fun _ _ => receiveSignature_via) _ _)

/-! ## The second receipt -/

theorem storeSignature_of_kept (ht : envelopeTombstoned db id ≠ true)
    (hk : verifies host node id key signature = true → SignatureKept db id key) :
    storeSignature host node db id key signature = db := by
  unfold storeSignature
  split
  · rename_i hv
    obtain ⟨s, hs⟩ := ne_none_iff_exists'.mp ((hk hv).resolve_left ht)
    simp [exec, bump, hs, insert_of_some hs]
  · rfl

theorem receiveEnvelope_of_pageHeld (hh : PageHeld host node db exchange)
    (he : envelope ∈ exchange.envelopes) :
    receiveEnvelope host node relay now db envelope = db := by
  unfold receiveEnvelope
  split
  · rfl
  · rename_i ht
    have hc : storeCarriedSignature host node db envelope = db := by
      unfold storeCarriedSignature
      split
      · rename_i key signature hk hs
        exact storeSignature_of_kept ht ((hh.1 envelope he).2 key signature hk hs)
      · rfl
    obtain ⟨row, hr⟩ := ne_none_iff_exists'.mp ((hh.1 envelope he).1.resolve_left ht)
    simp [hc, exec, bump, hr, insert_of_some hr]

theorem receiveSignature_of_pageHeld {signature : ReplicaEnvelopeSignature}
    (hh : PageHeld host node db exchange) (hs : signature ∈ exchange.signatures) :
    receiveSignature host node db signature = db := by
  unfold receiveSignature
  split
  · rfl
  · rename_i ht
    exact storeSignature_of_kept ht (hh.2 signature hs)

theorem foldl_eq_self {α : Type} {f : Db → α → Db} {as : List α} (h : ∀ a ∈ as, f db a = db) :
    as.foldl f db = db := by
  induction as with
  | nil => rfl
  | cons a as ih =>
    rw [foldl_cons, h a mem_cons_self]
    exact ih fun b hb => h b (mem_cons_of_mem _ hb)

theorem receiveExchange_of_pageHeld (hh : PageHeld host node db exchange)
    (ha : exchange.accepted host node relay = true) (now : Nat) :
    receiveExchange host node relay now exchange db = (.ok (), db) := by
  refine receiveExchange_eq_ok_iff.mpr ⟨ha, ?_⟩
  rw [foldl_eq_self fun _ => receiveEnvelope_of_pageHeld hh, foldl_eq_self]
  exact fun _ hs => receiveSignature_of_pageHeld hh (mem_of_mem_filter hs)

theorem Untouched.trans (h : Untouched id db db') (h' : Untouched id db' db'') :
    Untouched id db db'' :=
  ⟨h'.1.trans h.1, h'.2.1.trans h.2.1, fun key => (h'.2.2 key).trans (h.2.2 key)⟩

theorem untouched_storeSignature {other : EnvelopeId} (hn : id ≠ other) :
    Untouched id db (storeSignature host node db other key signature) := by
  unfold storeSignature
  split
  · refine ⟨rfl, rfl, fun key' => ?_⟩
    simp [exec, bump, get?_insert, hn]
  · exact ⟨rfl, rfl, fun _ => rfl⟩

theorem untouched_receiveEnvelope (h : envelopeTombstoned db id = true) :
    Untouched id db (receiveEnvelope host node relay now db envelope) := by
  unfold receiveEnvelope
  split
  · exact ⟨rfl, rfl, fun _ => rfl⟩
  · rename_i ht
    have hn : id ≠ envelope.id := fun heq => ht (heq ▸ h)
    have hc : Untouched id db (storeCarriedSignature host node db envelope) := by
      unfold storeCarriedSignature
      split
      · exact untouched_storeSignature hn
      · exact ⟨rfl, rfl, fun _ => rfl⟩
    refine hc.trans ⟨rfl, ?_, fun _ => rfl⟩
    simp [exec, bump, get?_insert, hn]

theorem untouched_receiveSignature {signature : ReplicaEnvelopeSignature}
    (h : envelopeTombstoned db id = true) :
    Untouched id db (receiveSignature host node db signature) := by
  unfold receiveSignature
  split
  · exact ⟨rfl, rfl, fun _ => rfl⟩
  · rename_i ht
    exact untouched_storeSignature fun heq => ht (heq ▸ h)

theorem untouched_foldl {α : Type} {f : Db → α → Db}
    (hf : ∀ db a, envelopeTombstoned db id = true → Untouched id db (f db a)) (as : List α) :
    ∀ db, envelopeTombstoned db id = true → Untouched id db (as.foldl f db) := by
  induction as with
  | nil => exact fun db _ => ⟨rfl, rfl, fun _ => rfl⟩
  | cons a as ih =>
    intro db h
    have hs := hf db a h
    exact hs.trans (ih _ (by rwa [envelopeTombstoned, hs.1]))

theorem untouched_receiveExchange
    (hr : receiveExchange host node relay now exchange db = (.ok (), db'))
    (h : envelopeTombstoned db id = true) : Untouched id db db' := by
  have hp : Untouched id db (exchange.envelopes.foldl (receiveEnvelope host node relay now) db) :=
    untouched_foldl (fun _ _ => untouched_receiveEnvelope) exchange.envelopes db h
  obtain ⟨-, rfl⟩ := receiveExchange_eq_ok_iff.mp hr
  refine hp.trans (untouched_foldl (fun _ _ => untouched_receiveSignature) _ _ ?_)
  rwa [envelopeTombstoned, hp.1]

/-- The second envelope's sequence does not fit, and the first is inserted by then. -/
def overflowingPage : ReplicationExchange :=
  { plainExchange [1] with
    envelopes := [plainEnvelope [1], { plainEnvelope [1] with id := ⟨"mallory", 2 ^ 63, "h"⟩ }] }

end Smalltalk
