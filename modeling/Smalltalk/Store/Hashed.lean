import Smalltalk.Lib.Lexicographic

/-!
# What an envelope's hash covers

`replica_envelope_hash` digests its fields one after the other, each behind its length.
-/

namespace Smalltalk

open List

/-- The arguments of `replica_envelope_hash`, whose lengths and numbers fit their types. -/
structure HashedEnvelope where
  writer : Text
  sequence : Nat
  previousHash : Option Text
  acceptedAt : Nat
  payload : Text
  texts : writer.length < 2 ^ 64 ∧ (previousHash.getD []).length < 2 ^ 64
  numbers : sequence < 2 ^ 64 ∧ acceptedAt < 2 ^ 128

def lengthPrefixed (field : Text) : Text := numberBytes 8 field.length ++ field

variable (sha256Hex : Text → { text : Text // text.length = 64 })

def hashedFields (envelope : HashedEnvelope) : List Text :=
  [envelope.writer, decimal envelope.sequence, envelope.previousHash.getD [],
    decimal envelope.acceptedAt, sha256Hex envelope.payload]

def hashedBytes (envelope : HashedEnvelope) : Text :=
  "st3-replica-envelope-v1\x00".toUTF8.toList ++
    (hashedFields sha256Hex envelope).flatMap lengthPrefixed

theorem decimal_inj {n m : Nat} (h : decimal n = decimal m) : n = m := by
  have hc := compare_decimal n m
  rw [h, compareBytes_eq_eq.mpr rfl, Nat.compare_eq_eq.mpr rfl] at hc
  exact Nat.compare_eq_eq.mp hc.symm

theorem length_decimal_lt {n : Nat} (h : n < 2 ^ 128) : (decimal n).length < 2 ^ 64 := by
  have hl := Nat.log_lt_of_lt_pow' (b := 10) (x := 39) (by decide) (h.trans (by decide))
  rw [length_decimal]
  omega

theorem lengthPrefixed_inj {a b x y : Text} (ha : a.length < 2 ^ 64) (hb : b.length < 2 ^ 64)
    (h : lengthPrefixed a ++ x = lengthPrefixed b ++ y) : a = b ∧ x = y := by
  simp only [lengthPrefixed, append_assoc] at h
  have hc := compareBytes_eq_eq.mpr h
  rw [compare_numberBytes 8 ha hb, Ordering.then_eq_eq] at hc
  exact append_inj (compareBytes_eq_eq.mp hc.2) (Nat.compare_eq_eq.mp hc.1)

/-- Envelopes are hashed from the same bytes only if they agree, but for an absent previous hash and
an empty one. -/
theorem hashedBytes_eq_iff (a b : HashedEnvelope) :
    hashedBytes sha256Hex a = hashedBytes sha256Hex b ↔
      a.writer = b.writer ∧ a.sequence = b.sequence ∧
      a.previousHash.getD [] = b.previousHash.getD [] ∧ a.acceptedAt = b.acceptedAt ∧
      sha256Hex a.payload = sha256Hex b.payload := by
  constructor
  · intro h
    have h := append_cancel_left h
    simp only [hashedFields, flatMap_cons] at h
    obtain ⟨hw, h⟩ := lengthPrefixed_inj a.texts.1 b.texts.1 h
    have hn : ∀ e : HashedEnvelope, e.sequence < 2 ^ 128 := fun e => e.numbers.1.trans (by decide)
    obtain ⟨hs, h⟩ := lengthPrefixed_inj (length_decimal_lt (hn a)) (length_decimal_lt (hn b)) h
    obtain ⟨hp, h⟩ := lengthPrefixed_inj a.texts.2 b.texts.2 h
    obtain ⟨ht, h⟩ :=
      lengthPrefixed_inj (length_decimal_lt a.numbers.2) (length_decimal_lt b.numbers.2) h
    have hd : ∀ payload, (sha256Hex payload).1.length < 2 ^ 64 :=
      fun payload => by rw [(sha256Hex payload).2]; decide
    exact ⟨hw, decimal_inj hs, hp, decimal_inj ht,
      Subtype.ext (lengthPrefixed_inj (hd _) (hd _) h).1⟩
  · rintro ⟨hw, hs, hp, ht, hd⟩
    rw [hashedBytes, hashedFields, hw, hs, hp, ht, hd, hashedBytes, hashedFields]

def sampleHex (payload : Text) : { text : Text // text.length = 64 } :=
  ⟨replicate 64 (payload.headD 48), by simp⟩

/-- The envelope 12 of the writer `a`, without a hash before it. -/
def sampleEnvelope : HashedEnvelope := ⟨[97], 12, none, 5, [49], by decide, by decide⟩

def emptyPrevious : HashedEnvelope := ⟨[97], 12, some [], 5, [49], by decide, by decide⟩

/-- The digit 1 moved from the sequence to the writer. -/
def movedDigit : HashedEnvelope := ⟨[97, 49], 2, none, 5, [49], by decide, by decide⟩

theorem sampleEnvelope_hashed :
    hashedBytes sampleHex sampleEnvelope = hashedBytes sampleHex emptyPrevious ∧
    hashedBytes sampleHex sampleEnvelope ≠ hashedBytes sampleHex movedDigit :=
  ⟨(hashedBytes_eq_iff sampleHex sampleEnvelope emptyPrevious).mpr (by decide),
    fun h => absurd ((hashedBytes_eq_iff sampleHex sampleEnvelope movedDigit).mp h).1 (by decide)⟩

end Smalltalk
