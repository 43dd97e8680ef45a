import Smalltalk.Retired.Ledger

/-!
# What the retired ledgers report

Whatever was ever a tombstone is in the ledgers once it is withdrawn or the pages of the import
are done, and stays there.
-/

namespace Smalltalk.Retired

open List Option Table

theorem unhex_injective : ∀ {f second : Text}, f.length = second.length → f.length % 2 = 0 →
    (∀ b ∈ f, (hexDigit b).isSome = true) → (∀ b ∈ second, (hexDigit b).isSome = true) →
    unhex f = unhex second → f = second
  | [], [], _, _, _, _, _ => rfl
  | [], _ :: _, hl, _, _, _, _ => by simp at hl
  | [_], second, _, he, _, _, _ => by simp at he
  | _ :: _ :: _, [], hl, _, _, _, _ => by simp at hl
  | _ :: _ :: _, [_], hl, _, _, _, _ => by simp at hl
  | hi :: low :: f, hi' :: low' :: second, hl, he, hf, hs, h => by
    obtain ⟨x, hx⟩ := isSome_iff_exists.mp (hf hi (by simp))
    obtain ⟨y, hy⟩ := isSome_iff_exists.mp (hf low (by simp))
    obtain ⟨x', hx'⟩ := isSome_iff_exists.mp (hs hi' (by simp))
    obtain ⟨y', hy'⟩ := isSome_iff_exists.mp (hs low' (by simp))
    have hlt := hexDigit_lt hx
    have ht := hexDigit_lt hy
    have hlt' := hexDigit_lt hx'
    have ht' := hexDigit_lt hy'
    simp only [unhex, hx, hy, hx', hy', getD_some, cons.injEq] at h
    have hb : x * 16 + y = x' * 16 + y' := by
      have := congrArg UInt8.toNat h.1
      rwa [UInt8.toNat_ofNat_of_lt' (show x * 16 + y < 256 by omega),
        UInt8.toNat_ofNat_of_lt' (show x' * 16 + y' < 256 by omega)] at this
    have heq : x = x' := by omega
    have hq : y = y' := by omega
    have hh : hi = hi' := by rw [← hexByte_of_hexDigit hx, ← hexByte_of_hexDigit hx', heq]
    have hw : low = low' := by rw [← hexByte_of_hexDigit hy, ← hexByte_of_hexDigit hy', hq]
    have hr : f = second := unhex_injective (by simpa using hl) (by simp at he; omega)
      (fun b hb => hf b (by simp [hb])) (fun b hb => hs b (by simp [hb])) h.2
    rw [hh, hw, hr]

theorem hexDigit_lt_128 {b : UInt8} (h : (hexDigit b).isSome = true) : b.toNat < 128 := by
  unfold hexDigit at h
  split at h
  · omega
  · split at h
    · omega
    · cases h

/-- Texts without a zero byte have different identities. -/
theorem identity_injective {f second : Text} (hf : 0 ∉ f) (hs : 0 ∉ second)
    (h : identity f = identity second) : f = second := by
  have hh : ∀ {value : Text}, 0 ∉ value → (cText value).all (fun b => (hexDigit b).isSome) = true →
      sqlLength value = value.length := by
    intro value hv ha
    rw [cText_eq_self hv, List.all_eq_true] at ha
    exact sqlLength_eq_length hv fun b hb => hexDigit_lt_128 (ha b hb)
  unfold identity at h
  split at h
  · rename_i hd
    split at h
    · rename_i hd'
      have hl := hh hf hd.2
      have hl' := hh hs hd'.2
      rw [cText_eq_self hf, List.all_eq_true] at hd
      rw [cText_eq_self hs, List.all_eq_true] at hd'
      rw [cText_eq_self hf, cText_eq_self hs] at h
      refine unhex_injective ?_ ?_ hd.2 hd'.2 (Identity.blob.inj h)
      · omega
      · omega
    · cases h
  · split at h
    · cases h
    · exact Identity.text.inj h

/-! ## Rows and ledgers -/

def waitsClaims : ImportCursor → Nat → Prop
  | .claims after, rowid => after < rowid
  | _, _ => False

def waitsEnvelopes : ImportCursor → Nat → Prop
  | .claims _, rowid => 0 < rowid
  | .envelopes after, rowid => after < rowid
  | .done, _ => False

def waitsFacts : Option Nat → Nat → Prop
  | some after, rowid => after < rowid
  | none, _ => False

structure Inv (h : History) : Prop where
  claims : Covered claimFacts identity (waitsClaims h.db.cursor) h.db.claims h.db.retiredClaims
    (h.claims.flatMap claimFacts)
  envelopes : Covered envelopeFacts envelopeName
    (waitsEnvelopes h.db.cursor) h.db.envelopes h.db.retiredEnvelopes
    (h.envelopes.flatMap envelopeFacts)
  ancestry : Covered ancestryFacts identity (waitsFacts h.db.factsCursor) h.db.claims h.db.ancestry
    (h.claims.flatMap ancestryFacts)
  receipts : Covered receiptFacts receiptName
    (waitsFacts h.db.factsCursor) h.db.claims h.db.receipts
    (h.claims.flatMap receiptFacts)

section
variable {ρ R ε φ : Type} [DecidableEq ε] {facts : ρ → List (R × φ)} {encode : R → ε}

theorem Covered.begin {waits : Nat → Prop} {rows : Table Nat ρ}
    (ht : ∀ rowid row, rows.get? rowid = some row → waits rowid) :
    Covered facts encode waits rows ∅ ((rows.rows.map (·.2)).flatMap facts) where
  sound name fact h := by cases h
  held rowid row hg fact hf :=
    mem_flatMap.mpr ⟨row, mem_map.mpr ⟨(rowid, row), mem_rows.mpr hg, rfl⟩, hf⟩
  covered fact hf := by
    obtain ⟨row, hw, hm⟩ := mem_flatMap.mp hf
    obtain ⟨r, hr, rfl⟩ := mem_map.mp hw
    exact .inr ⟨r.1, r.2, fact, mem_rows.mp hr, hm, rfl, ht r.1 r.2 (mem_rows.mp hr)⟩

theorem flatMap_snoc (rows : List ρ) (row : ρ) :
    (rows ++ [row]).flatMap facts = rows.flatMap facts ++ facts row := by
  simp

end

theorem begin_inv {claims : Table Nat ClaimTombstone} {envelopes : Table Nat EnvelopeTombstone}
    (hc : ∀ rowid row, claims.get? rowid = some row → 0 < rowid)
    (he : ∀ rowid row, envelopes.get? rowid = some row → 0 < rowid) :
    Inv (begin claims envelopes) where
  claims := Covered.begin hc
  envelopes := Covered.begin he
  ancestry := Covered.begin hc
  receipts := Covered.begin hc

structure Steps (h h' : History) : Prop where
  claims : LedgerStep claimFacts identity (waitsClaims h.db.cursor) h.db.claims h.db.retiredClaims
    (h.claims.flatMap claimFacts) (waitsClaims h'.db.cursor) h'.db.claims h'.db.retiredClaims
      (h'.claims.flatMap claimFacts)
  envelopes : LedgerStep envelopeFacts envelopeName
    (waitsEnvelopes h.db.cursor) h.db.envelopes h.db.retiredEnvelopes
    (h.envelopes.flatMap envelopeFacts) (waitsEnvelopes h'.db.cursor) h'.db.envelopes
      h'.db.retiredEnvelopes
    (h'.envelopes.flatMap envelopeFacts)
  ancestry : LedgerStep ancestryFacts identity
    (waitsFacts h.db.factsCursor) h.db.claims h.db.ancestry
    (h.claims.flatMap ancestryFacts) (waitsFacts h'.db.factsCursor) h'.db.claims h'.db.ancestry
    (h'.claims.flatMap ancestryFacts)
  receipts : LedgerStep receiptFacts receiptName
    (waitsFacts h.db.factsCursor) h.db.claims h.db.receipts
    (h.claims.flatMap receiptFacts) (waitsFacts h'.db.factsCursor) h'.db.claims h'.db.receipts
    (h'.claims.flatMap receiptFacts)

theorem Steps.refl (h : History) : Steps h h := ⟨.stay, .stay, .stay, .stay⟩

variable {h h' : History}

variable {rowid : Nat} {row : ClaimTombstone} {db : Db}

theorem Steps.insertClaim
    (hi : insertClaim h.db rowid row = some db) : Steps h ⟨db, h.claims ++ [row], h.envelopes⟩ := by
  unfold Retired.insertClaim at hi
  split at hi
  · cases hi
  · rename_i hc
    cases hi
    have hn : h.db.claims.get? rowid = none := by
      simp only [Bool.or_eq_true, decide_eq_true_eq, not_or, not_isSome_iff_eq_none] at hc
      exact hc.2
    refine ⟨?_, .stay, ?_, ?_⟩
    · rw [flatMap_snoc]
      exact .insert hn
    · rw [flatMap_snoc]
      exact .insert hn
    · rw [flatMap_snoc]
      exact .insert hn

theorem updateClaim_eq {db' : Db} {named : Named}
    (hu : updateClaim db rowid row named = some db') : ∃ old, db.claims.get? rowid = some old ∧
      named.allows old row = true ∧ db' = { db with
          claims := db.claims.update rowid fun _ => row
          retiredClaims := if named.identity then
            unionRow claimFacts identity (unionRow claimFacts identity db.retiredClaims row) old
              else db.retiredClaims
          ancestry := if named.facts then
            unionRow ancestryFacts identity (unionRow ancestryFacts identity db.ancestry row) old
              else db.ancestry
          receipts := if named.facts then
            unionRow receiptFacts receiptName (unionRow receiptFacts receiptName db.receipts row)
              old else db.receipts } := by
  unfold updateClaim at hu
  split at hu
  · cases hu
  · rename_i old hold
    split at hu
    · rename_i ha
      refine ⟨old, hold, ha, (Option.some.inj hu).symm.trans ?_⟩
      obtain ⟨identity, facts⟩ := named
      cases identity <;> cases facts <;> rfl
    · cases hu

theorem Steps.updateClaim {named : Named}
    (hu : updateClaim h.db rowid row named = some db) :
    Steps h ⟨db, h.claims ++ [row], h.envelopes⟩ := by
  obtain ⟨old, hold, ha, rfl⟩ := updateClaim_eq hu
  simp only [Named.allows, Bool.and_eq_true, Bool.or_eq_true, decide_eq_true_eq] at ha
  obtain ⟨hd, hf⟩ := ha
  have hd : named.identity = false → claimFacts row = claimFacts old := by
    intro hn
    have hi := (hd.resolve_left (by simp [hn])).1
    rw [claimFacts, claimFacts, hi]
  refine ⟨?_, .stay, ?_, ?_⟩
  · rw [flatMap_snoc]
    exact .rewrite hold hd
  · rw [flatMap_snoc]
    refine .rewrite hold fun hn => ?_
    obtain ⟨⟨⟨⟨⟨hi, hs⟩, hk⟩, hp⟩, -⟩, -⟩ := hf.resolve_left (by simp [hn])
    rw [ancestryFacts, ancestryFacts, hi, hs, hk, hp]
  · rw [flatMap_snoc]
    refine .rewrite hold fun hn => ?_
    obtain ⟨⟨⟨⟨⟨hi, -⟩, -⟩, -⟩, ho⟩, hg⟩ := hf.resolve_left (by simp [hn])
    rw [receiptFacts, receiptFacts, hi, ho, hg]

theorem Steps.deleteClaim (rowid : Nat) :
    Steps h ⟨deleteClaim h.db rowid, h.claims, h.envelopes⟩ := by
  unfold Retired.deleteClaim
  split
  · exact .refl h
  · rename_i old hold
    exact ⟨.delete hold, .stay, .delete hold, .delete hold⟩

theorem Steps.insertEnvelope {row : EnvelopeTombstone}
    (hi : insertEnvelope h.db rowid row = some db) :
    Steps h ⟨db, h.claims, h.envelopes ++ [row]⟩ := by
  unfold Retired.insertEnvelope at hi
  split at hi
  · cases hi
  · rename_i hc
    cases hi
    have hn : h.db.envelopes.get? rowid = none := by
      simp only [Bool.or_eq_true, decide_eq_true_eq, not_or, not_isSome_iff_eq_none] at hc
      exact hc.2
    refine ⟨.stay, ?_, .stay, .stay⟩
    rw [flatMap_snoc]
    exact .insert hn

theorem Steps.updateEnvelope {row : EnvelopeTombstone}
    (hu : updateEnvelope h.db rowid row = some db) :
    Steps h ⟨db, h.claims, h.envelopes ++ [row]⟩ := by
  unfold Retired.updateEnvelope at hu
  split at hu
  · cases hu
  · rename_i old hold
    cases hu
    refine ⟨.stay, ?_, .stay, .stay⟩
    rw [flatMap_snoc]
    exact .update hold

theorem Steps.deleteEnvelope (rowid : Nat) :
    Steps h ⟨deleteEnvelope h.db rowid, h.claims, h.envelopes⟩ := by
  unfold Retired.deleteEnvelope
  split
  · exact .refl h
  · rename_i old hold
    exact ⟨.stay, .delete hold, .stay, .stay⟩

theorem Steps.importIdentities (m : Nat) :
    Steps h ⟨importIdentities h.db m, h.claims, h.envelopes⟩ := by
  obtain ⟨⟨claims, envelopes, retiredClaims, retiredEnvelopes, ancestry, receipts, cursor,
    factsCursor⟩, _, _⟩ := h
  cases cursor with
  | done => exact .refl _
  | claims after =>
    cases hp : pageThrough claims after (m + 1) with
    | none =>
      simp only [Retired.importIdentities, hp]
      exact ⟨.finish fun _ _ hg => Nat.not_lt.mpr (pageThrough_none hp hg), .stay, .stay, .stay⟩
    | some through =>
      simp only [Retired.importIdentities, hp]
      exact ⟨.page (fun _ hw => hw) fun rowid _ => (Nat.lt_or_ge through rowid).symm, .stay,
        .stay, .stay⟩
  | envelopes after =>
    cases hp : pageThrough envelopes after (m + 1) with
    | none =>
      simp only [Retired.importIdentities, hp]
      exact ⟨.stay, .finish fun _ _ hg => Nat.not_lt.mpr (pageThrough_none hp hg), .stay, .stay⟩
    | some through =>
      simp only [Retired.importIdentities, hp]
      exact ⟨.stay, .page (fun _ hw => hw) fun rowid _ => (Nat.lt_or_ge through rowid).symm,
        .stay, .stay⟩

theorem Steps.importFacts (m : Nat) : Steps h ⟨importFacts h.db m, h.claims, h.envelopes⟩ := by
  obtain ⟨⟨claims, envelopes, retiredClaims, retiredEnvelopes, ancestry, receipts, cursor,
    factsCursor⟩, _, _⟩ := h
  cases factsCursor with
  | none => exact .refl _
  | some after =>
    cases hp : pageThrough claims after (m + 1) with
    | none =>
      simp only [Retired.importFacts, hp]
      exact ⟨.stay, .stay, .finish fun _ _ hg => Nat.not_lt.mpr (pageThrough_none hp hg),
        .finish fun _ _ hg => Nat.not_lt.mpr (pageThrough_none hp hg)⟩
    | some through =>
      simp only [Retired.importFacts, hp]
      exact ⟨.stay, .stay, .page (fun _ hw => hw) fun rowid _ => (Nat.lt_or_ge through rowid).symm,
        .page (fun _ hw => hw) fun rowid _ => (Nat.lt_or_ge through rowid).symm⟩

theorem machine_steps {label : Label} (hs : machine.step h label = some h') : Steps h h' := by
  obtain ⟨db, hd, rfl⟩ := map_eq_some_iff.mp hs
  cases label with
  | insertClaim rowid row => simpa using Steps.insertClaim hd
  | updateClaim rowid row named => simpa using Steps.updateClaim hd
  | deleteClaim rowid =>
    cases hd
    simpa using Steps.deleteClaim rowid
  | insertEnvelope rowid row => simpa using Steps.insertEnvelope hd
  | updateEnvelope rowid row => simpa using Steps.updateEnvelope hd
  | deleteEnvelope rowid =>
    cases hd
    simpa using Steps.deleteEnvelope rowid
  | importIdentities m =>
    cases hd
    simpa using Steps.importIdentities m
  | importFacts m =>
    cases hd
    simpa using Steps.importFacts m

theorem machine_keeps_inv : machine.Keeps (fun _ => True) Inv := by
  intro h label h' _ hh ht
  have hs := machine_steps ht
  exact ⟨hh.claims.step hs.claims, hh.envelopes.step hs.envelopes, hh.ancestry.step hs.ancestry,
    hh.receipts.step hs.receipts⟩

structure RecordsAll (h h' : History) : Prop where
  claims : Records claimFacts identity h.db.claims h.db.retiredClaims h'.db.claims
    h'.db.retiredClaims
  envelopes : Records envelopeFacts envelopeName h.db.envelopes h.db.retiredEnvelopes
    h'.db.envelopes h'.db.retiredEnvelopes
  ancestry : Records ancestryFacts identity h.db.claims h.db.ancestry h'.db.claims h'.db.ancestry
  receipts : Records receiptFacts receiptName h.db.claims h.db.receipts h'.db.claims h'.db.receipts

theorem run_records {labels : List Label} (hr : machine.run h labels = some h') :
    RecordsAll h h' := by
  induction labels generalizing h with
  | nil =>
    cases hr
    exact ⟨.refl, .refl, .refl, .refl⟩
  | cons label labels ih =>
    obtain ⟨next, ht, hr⟩ := Machine.run_cons_eq_some.mp hr
    have hs := machine_steps ht
    have hall := ih hr
    exact ⟨hs.claims.records.trans hall.claims, hs.envelopes.records.trans hall.envelopes,
      hs.ancestry.records.trans hall.ancestry, hs.receipts.records.trans hall.receipts⟩

/-! ## The ledgers over runs -/

/-- What a ledger reports of the names of rows. The ghost list `ever` holds the
rows there were so far, `rows'` and `reported'` are those of a later time. -/
structure ExactLedger {ρ R φ : Type} (facts : ρ → List (R × φ)) (text : R → Text) (ever : List ρ)
    (rows rows' : Table Nat ρ) (reported reported' : R → Bool) (imported : Prop) : Prop where
  finished : imported → ∀ row ∈ ever, ∀ fact ∈ facts row, reported fact.1 = true
  gone : ∀ row ∈ ever, ∀ fact ∈ facts row,
    (∀ rowid row', rows.get? rowid = some row' → ∀ fact' ∈ facts row', fact'.1 ≠ fact.1) →
    reported fact.1 = true
  withdrawn : ∀ rowid row, rows.get? rowid = some row → ∀ fact ∈ facts row,
    (∀ row', rows'.get? rowid = some row' → ∀ fact' ∈ facts row', fact'.1 ≠ fact.1) →
    reported' fact.1 = true
  forever : ∀ r, reported r = true → reported' r = true
  sound : (∀ row ∈ ever, ∀ fact ∈ facts row, 0 ∉ text fact.1) → ∀ r, 0 ∉ text r →
    reported r = true → ∃ row ∈ ever, ∃ fact ∈ facts row, fact.1 = r

theorem exactLedger_of {ρ R ε φ : Type} [DecidableEq ε] {facts : ρ → List (R × φ)} {encode : R → ε}
    {waits : Nat → Prop} {rows rows' : Table Nat ρ} {l l' : Table ε φ} {e : List ρ}
    {text : R → Text} {i : Prop} (hc : Covered facts encode waits rows l (e.flatMap facts))
    (hrecords : Records facts encode rows l rows' l') (hi : i → ∀ rowid, ¬ waits rowid)
    (heq : ∀ {r r' : R}, 0 ∉ text r → 0 ∉ text r' → encode r = encode r' → r = r') :
    ExactLedger facts text e rows rows' (fun r => (l.get? (encode r)).isSome)
      (fun r => (l'.get? (encode r)).isSome) i where
  finished hd row hw f hf :=
    isSome_iff_ne_none.mpr (hc.recorded (mem_flatMap.mpr ⟨row, hw, hf⟩) (.inr (hi hd)))
  gone row hw f hf hn :=
    isSome_iff_ne_none.mpr (hc.recorded (mem_flatMap.mpr ⟨row, hw, hf⟩) (.inl hn))
  withdrawn rowid row hg f hf hn := isSome_iff_ne_none.mpr (hrecords.withdrawn hg hf hn)
  forever r hp := isSome_iff_ne_none.mpr (hrecords.kept _ (isSome_iff_ne_none.mp hp))
  sound he r hr hp := by
    obtain ⟨f, hg⟩ := isSome_iff_exists.mp hp
    obtain ⟨r', hencode, hm⟩ := hc.sound _ _ hg
    obtain ⟨row, hw, hf⟩ := mem_flatMap.mp hm
    exact ⟨row, hw, (r', f), hf, heq (he row hw _ hf) hr hencode⟩

/-- Whatever the writes to the tombstones and the pages of the imports, the ledgers report what
ever was a tombstone, once it is withdrawn or the import is done, and nothing else. -/
theorem retired_ledgers_exact {claims : Table Nat ClaimTombstone}
    {envelopes : Table Nat EnvelopeTombstone}
    (hclaims : ∀ rowid row, claims.get? rowid = some row → 0 < rowid)
    (henvelopes : ∀ rowid row, envelopes.get? rowid = some row → 0 < rowid)
    {labels later : List Label} {h h' : History}
    (hrun : machine.run (begin claims envelopes) labels = some h)
    (hlater : machine.run h later = some h') :
    ExactLedger claimFacts id h.claims h.db.claims h'.db.claims (claimRetired h.db)
      (claimRetired h'.db) (h.db.cursor = .done) ∧
      ExactLedger envelopeFacts (·.2.2) h.envelopes h.db.envelopes h'.db.envelopes
        (envelopeRetired h.db) (envelopeRetired h'.db) (h.db.cursor = .done) ∧
      ExactLedger ancestryFacts id h.claims h.db.claims h'.db.claims
        (fun id => (retiredPredecessors h.db id).isSome)
          (fun id => (retiredPredecessors h'.db id).isSome) (h.db.factsCursor = none) ∧
      ExactLedger receiptFacts (·.2.2) h.claims h.db.claims h'.db.claims (operationRetired h.db)
        (operationRetired h'.db) (h.db.factsCursor = none) ∧
      ∀ first second : Text, 0 ∉ first → 0 ∉ second → first ≠ second →
      identity first ≠ identity second := by
  have hi : Inv h := machine_keeps_inv.run (fun _ _ => trivial) (begin_inv hclaims henvelopes) hrun
  have hr := run_records hlater
  refine ⟨?_, ?_, ?_, ?_, ?_⟩
  · refine exactLedger_of hi.claims hr.claims ?_ identity_injective
    rintro hd rowid
    rw [hd]
    exact not_false
  · refine exactLedger_of hi.envelopes hr.envelopes ?_ ?_
    · rintro hd rowid
      rw [hd]
      exact not_false
    · rintro ⟨writer, sequence, hash⟩ ⟨writer', sequence', hash'⟩ hh hh' heq
      simp only [envelopeName, Prod.mk.injEq] at heq ⊢
      exact ⟨heq.1, heq.2.1, identity_injective hh hh' heq.2.2⟩
  · simp only [retiredPredecessors, isSome_map]
    refine exactLedger_of hi.ancestry hr.ancestry ?_ identity_injective
    rintro hd rowid
    rw [hd]
    exact not_false
  · refine exactLedger_of hi.receipts hr.receipts ?_ ?_
    · rintro hd rowid
      rw [hd]
      exact not_false
    · rintro ⟨operation, digest, claim⟩ ⟨operation', digest', claim'⟩ hc hc' heq
      simp only [receiptName, Prod.mk.injEq] at heq ⊢
      exact ⟨heq.1, heq.2.1, identity_injective hc hc' heq.2.2⟩
  · exact fun first second hf hs hn heq => hn (identity_injective hf hs heq)

def sampleDigest : Text := replicate 64 97

def sampleTombstone : ClaimTombstone where
  id := sampleDigest
  subject := [115]
  kind := [107]
  predecessors := [91, 93]
  operationId := some [111]
  requestDigest := some [114]
  checkpoint := [99]

def sampleEnvelope : EnvelopeTombstone := ⟨[119], 1, sampleDigest, [99]⟩

def sampleTombstones : Table Nat ClaimTombstone :=
  (∅ : Table Nat ClaimTombstone).insert 1 sampleTombstone

def sampleEnvelopes : Table Nat EnvelopeTombstone :=
  (∅ : Table Nat EnvelopeTombstone).insert 1 sampleEnvelope

def sampleLabels : List Label :=
  [.importIdentities 0, .importIdentities 0, .importIdentities 0, .importIdentities 0,
    .importFacts 0, .importFacts 0]

/-- Sixty-four digits, and a text that goes on after them with a zero byte, share a row. -/
theorem zero_byte_shares_row : sampleDigest ++ [0, 120] ≠ sampleDigest ∧
    identity (sampleDigest ++ [0, 120]) = identity sampleDigest ∧
    (machine.run (begin sampleTombstones sampleEnvelopes) sampleLabels).map (fun h =>
      (decide (sampleDigest ++ [0, 120] ∈ h.claims.map (·.id)),
        claimRetired h.db (sampleDigest ++ [0, 120]))) = some (false, true) := by
  refine ⟨by decide +kernel, by decide +kernel, by decide +kernel⟩

/-- Every name of the imported rows stays reported after both rows are withdrawn. -/
theorem sampleTombstones_exact :
    ∃ h h', machine.run (begin sampleTombstones sampleEnvelopes) sampleLabels = some h ∧
      machine.run h [.deleteClaim 1, .deleteEnvelope 1] = some h' ∧
      claimRetired h'.db sampleDigest = true ∧
      envelopeRetired h'.db ([119], 1, sampleDigest) = true ∧
      (retiredPredecessors h'.db sampleDigest).isSome = true ∧
      operationRetired h'.db ([111], [114], sampleDigest) = true := by
  have hr : (machine.run (begin sampleTombstones sampleEnvelopes) sampleLabels).map (fun h =>
      (h.db.cursor, h.db.factsCursor, h.claims, h.envelopes)) =
        some (.done, none, [sampleTombstone], [sampleEnvelope]) := by decide +kernel
  obtain ⟨h, hr, heq⟩ := map_eq_some_iff.mp hr
  simp only [Prod.mk.injEq] at heq
  obtain ⟨hd, hf, hc, he⟩ := heq
  have hone {ρ : Type} {row : ρ} : ∀ rowid row',
      ((∅ : Table Nat ρ).insert 1 row).get? rowid = some row' → 0 < rowid := by
    intro rowid row' hg
    rcases of_get?_insert hg with hg | ⟨rfl, -⟩
    · cases hg
    · decide
  obtain ⟨h', hl⟩ : ∃ h', machine.run h [.deleteClaim 1, .deleteEnvelope 1] = some h' := ⟨_, rfl⟩
  obtain ⟨claims, envelopes, ancestry, receipts, -⟩ := retired_ledgers_exact hone hone hr hl
  have hclaims : sampleTombstone ∈ h.claims := hc ▸ mem_singleton_self _
  refine ⟨h, h', hr, hl, claims.forever
    _ (claims.finished hd _ hclaims (sampleDigest, ()) mem_cons_self),
    envelopes.forever _ (envelopes.finished hd sampleEnvelope
      (he ▸ mem_singleton_self _) _ mem_cons_self),
    ancestry.forever _ (ancestry.finished hf _ hclaims (sampleDigest, _) mem_cons_self),
    receipts.forever _ (receipts.finished hf _ hclaims (_, ()) mem_cons_self)⟩

end Smalltalk.Retired
